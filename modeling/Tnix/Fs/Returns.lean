import Tnix.Fs.VolumeDisk

/-! # When the functions return

The rules for `bio.c`, `fs.c` and the inode cache that say that a function returns. -/

namespace Tnix.Fs

open Function Program
variable {Task : Type} {mount : Mount Task} {slot : Fin NINODE}

def Mount.withDi (mount : Mount Task) (slot : Fin NINODE) (di : Dinode) : Mount Task :=
  { mount with
    icache := update mount.icache slot { mount.icache slot with di := di } }

theorem Mount.withDi_di (mount : Mount Task) (slot : Fin NINODE) (di : Dinode) :
    ((mount.withDi slot di).icache slot).di = di := by
  simp only [withDi, update_self]

theorem Mount.withDi_self (mount : Mount Task) (slot : Fin NINODE) :
    mount.withDi slot (mount.icache slot).di = mount := by
  simp only [withDi, update_eq_self]

theorem Mount.withDi_withDi (mount : Mount Task) (slot : Fin NINODE) (first second : Dinode) :
    (mount.withDi slot first).withDi slot second = mount.withDi slot second := by
  simp only [withDi, update_self, update_idem]

/-! ## Buffers and the inode cache -/

theorem yields_bread {blockno : Nat} {post : IoBuf → Mount Task → Prop} :
    Yields (bread blockno) mount post ↔ blockno ∉ mount.held ∧ mount.held.length < NIOBUF ∧
        post ⟨blockno, mount.disk blockno⟩ { mount with held := blockno :: mount.held } := by
  rw [yields_iff_of_cond bread_eq bread_stops, and_assoc]

variable {b : IoBuf} {post : Unit → Mount Task → Prop} {held : List Nat} {i : Nat}

theorem yields_bwrite :
    Yields (bwrite b) mount post ↔ b.blockno ∈ mount.held ∧
        post () { mount with disk := update mount.disk b.blockno b.data } :=
  yields_iff_of_cond (fun isHeld => if_pos isHeld) fun notHeld => ⟨_, if_neg notHeld⟩

theorem yields_brelse :
    Yields (brelse b) mount post ↔ b.blockno ∈ mount.held ∧
        post () { mount with held := mount.held.erase b.blockno } :=
  yields_iff_of_cond (fun isHeld => if_pos isHeld) fun notHeld => ⟨_, if_neg notHeld⟩

section
variable (isHead : mount.held = b.blockno :: held)
include isHead

theorem yields_brelse_head (holds : post () { mount with held := held }) :
    Yields (brelse b) mount post := by
  rw [yields_brelse, isHead, List.erase_cons_head]
  exact ⟨List.mem_cons_self, holds⟩

theorem bzero_head :
    bzero b mount = .ok ((), { mount with disk := update mount.disk b.blockno 0 }) := by
  have isHeld : b.blockno ∈ mount.held := by
    rw [isHead]
    exact List.mem_cons_self
  exact if_pos isHeld

theorem brelse_head : brelse b mount = .ok ((), { mount with held := held }) := by
  rw [brelse, isHead, if_pos List.mem_cons_self, List.erase_cons_head]

end

theorem yields_readNthImap {n : Nat} {post : IoBuf → Mount Task → Prop}
    (inMap : n < mount.sb.inodes - mount.sb.imap)
    (yields : Yields (bread (n + mount.sb.imap)) mount post) :
    Yields (readNthImap n) mount post := by
  simp only [readNthImap, yields_bind, yields_get]
  rwa [if_neg (Nat.not_le.mpr inMap)]

theorem yields_readNthBmap {n : Nat} {post : IoBuf → Mount Task → Prop}
    (inMap : n < mount.sb.blocks - mount.sb.bmap)
    (yields : Yields (bread (n + mount.sb.bmap)) mount post) :
    Yields (readNthBmap n) mount post := by
  simp only [readNthBmap, yields_bind, yields_get]
  rwa [if_neg (Nat.not_le.mpr inMap)]

theorem yields_getInode {post : Inode Unit → Mount Task → Prop} :
    Yields (getInode slot) mount post ↔ post (mount.icache slot) mount := by
  simp only [getInode, yields_bind, yields_get, yields_pure]

theorem yields_setInode {inode : Inode Unit} :
    Yields (setInode slot inode) mount post ↔
      post () { mount with icache := update mount.icache slot inode } := by
  rw [setInode, yields_modify]

theorem yields_setDi {di : Dinode} :
    Yields (setDi slot di) mount post ↔ post () { mount with
        icache := update mount.icache slot { mount.icache slot with di := di } } := by
  simp only [setDi, yields_bind, yields_getInode, yields_setInode]

theorem iblockAt_eq (inRange : i < NDIRECT + NINDIRECT) :
    iblockAt slot i mount = .ok ((mount.icache slot).di.pointer i, mount) := by
  rw [Dinode.pointer, dif_pos inRange]
  exact congrFun (dif_pos inRange) mount

theorem yields_iblockAt {post : UInt32 → Mount Task → Prop} :
    Yields (iblockAt slot i) mount post ↔
      i < NDIRECT + NINDIRECT ∧ post ((mount.icache slot).di.pointer i) mount := by
  simp only [iblockAt, yields_bind, yields_getInode]
  split
  case isTrue inRange =>
    rw [yields_pure, Dinode.pointer, dif_pos inRange]
    exact ⟨fun holds => ⟨inRange, holds⟩, And.right⟩
  case isFalse outside =>
    rw [yields_throw]
    exact ⟨False.elim, fun both => outside both.1⟩

theorem setIblock_eq {blockno : UInt32} (inRange : i < NDIRECT + NINDIRECT) :
    setIblock slot i blockno mount =
      .ok ((), mount.withDi slot ((mount.icache slot).di.setPointer i blockno)) := by
  rw [Dinode.setPointer, dif_pos inRange]
  exact congrFun (dif_pos inRange) mount

theorem yields_setIblock {blockno : UInt32} :
    Yields (setIblock slot i blockno) mount post ↔ i < NDIRECT + NINDIRECT ∧ post () { mount with
        icache := update mount.icache slot { mount.icache slot with
          di := (mount.icache slot).di.setPointer i blockno } } := by
  simp only [setIblock, yields_bind, yields_getInode]
  split
  case isTrue inRange =>
    rw [yields_setDi, Dinode.setPointer, dif_pos inRange]
    exact ⟨fun holds => ⟨inRange, holds⟩, And.right⟩
  case isFalse outside =>
    rw [yields_throw]
    exact ⟨False.elim, fun both => outside both.1⟩

/-! ## Allocation in a map -/

/-- No block from `base` up to `limit` is locked, and there is room for one more buffer. -/
structure Unlocked (held : List Nat) (base limit : Nat) : Prop where
  notHeld : ∀ blockno, base ≤ blockno → blockno < limit → blockno ∉ held
  few : held.length < NIOBUF

theorem unlocked_nil (base limit : Nat) : Unlocked [] base limit :=
  ⟨fun _ _ _ => List.not_mem_nil, by decide⟩

theorem mapAllocFrom_returns (readNth : Nat → FsM Task IoBuf) (exhausted : String)
    {base limit : Nat} {sb : Superblock}
    (reads : ∀ (i : Nat) {mount : Mount Task} {post : IoBuf → Mount Task → Prop},
      mount.sb = sb → base + i < limit → Yields (bread (i + base)) mount post →
      Yields (readNth i) mount post) :
    ∀ (remaining start : Nat) (mount : Mount Task), mount.sb = sb →
      Unlocked mount.held base limit → base + (start + remaining) ≤ limit →
      (∃ n, start * BIT_CNT_PER_BLOCK ≤ n ∧ n < (start + remaining) * BIT_CNT_PER_BLOCK ∧
        mapBit mount.disk base n = false) →
      Yields (mapAllocFrom readNth exhausted remaining start) mount
        fun _ final => final.held = mount.held := by
  intro remaining
  induction remaining with
  | zero =>
    rintro start mount _ _ _ ⟨n, atLeast, below, _⟩
    rw [Nat.add_zero] at below
    omega
  | succ remaining induction =>
    rintro start mount sameSb unlocked inMap ⟨n, atLeast, below, isClear⟩
    rw [mapAllocFrom, yields_bind]
    refine reads start sameSb (by omega) ?_
    rw [yields_bread]
    refine ⟨unlocked.notHeld _ (by omega) (by omega), unlocked.few, ?_⟩
    cases found : Block.openSection (mount.disk (start + base)) with
    | none =>
      simp only [yields_bind]
      refine yields_brelse_head rfl
        (induction (start + 1) mount sameSb unlocked (by omega) ?_)
      refine ⟨n, ?_, by rwa [Nat.add_right_comm], isClear⟩
      by_contra before
      have blockOf : n / BIT_CNT_PER_BLOCK = start := by
        simp only [BIT_CNT_PER_BLOCK, BSIZE] at atLeast before ⊢
        omega
      rw [mapBit, blockOf, Nat.add_comm base start,
        Block.openSection_eq_none found (Nat.mod_lt n (by decide))] at isClear
      cases isClear
    | some j =>
      rcases Block.openSection_eq_some found with ⟨_, isOpen, _⟩
      cases bit : openBit (Block.u64 (mount.disk (start + base)) j) with
      | none => exact absurd bit (openBit_ne_none isOpen)
      | some k =>
        simp only [bit, yields_bind, yields_bwrite]
        refine ⟨List.mem_cons_self, ?_⟩
        exact yields_brelse_head rfl (yields_pure.mpr rfl)

theorem readNthBmap_eq {n : Nat} (inMap : n < mount.sb.blocks - mount.sb.bmap) :
    readNthBmap n mount = bread (n + mount.sb.bmap) mount := by
  rw [readNthBmap, bind_eq]
  exact congrFun (if_neg (Nat.not_le.mpr inMap)) mount

theorem balloc_returns (numbered : mount.sb.Numbered)
    (unlocked : Unlocked mount.held mount.sb.bmap mount.sb.blocks)
    (clear : ∃ p < mount.sb.bmapBits, mapBit mount.disk mount.sb.bmap p = false) :
    Yields balloc mount fun _ final => final.held = mount.held := by
  simp only [balloc, yields_bind, yields_get]
  have ordered := numbered.ordered
  have allocates := mapAllocFrom_returns readNthBmap "balloc: space exhausted"
    (fun i _ _ sameSb inMap yields => yields_readNthBmap (by rw [sameSb]; omega) (sameSb ▸ yields))
    (mount.sb.blocks - mount.sb.bmap) 0 mount rfl unlocked (by omega) ?_
  · exact allocates.mono fun _ _ same => yields_pure.mpr same
  · rcases clear with ⟨p, inMap, isClear⟩
    rw [Nat.zero_add, Nat.zero_mul]
    exact ⟨p, Nat.zero_le p, inMap, isClear⟩

theorem balloc_yields (geometry : mount.sb.Geometry)
    (unlocked : Unlocked mount.held mount.sb.bmap mount.sb.blocks)
    (free : ∃ blockno, mount.sb.IsData blockno ∧ mount.volume.bmap blockno = false) :
    Yields balloc mount fun blockno final => ∃ disk,
      final = { mount with disk := disk } ∧ Allocated mount disk blockno := by
  have clear : ∃ p < mount.sb.bmapBits, mapBit mount.disk mount.sb.bmap p = false := by
    rcases free with ⟨blockno, isData, isFree⟩
    refine ⟨blockno.toNat - mount.sb.blocks, ?_, by rwa [bmap_eq_mapBit isData] at isFree⟩
    rw [Superblock.IsData] at isData
    rw [Superblock.bmapBits]
    omega
  have returns := balloc_returns geometry.numbered unlocked clear
  refine (returns.ensures (balloc_ensures geometry)).mono ?_
  rintro blockno _ ⟨sameHeld, disk, held, rfl, allocated⟩
  refine ⟨disk, ?_, allocated⟩
  rw [← sameHeld]

def Mount.dinodeWritten (mount : Mount Task) (slot : Fin NINODE) : Nat → Block :=
  update mount.disk
    (mount.sb.inodes + (mount.icache slot).inum.toNat / DINODE_CNT_PER_BLOCK)
    ((mount.disk (mount.sb.inodes + (mount.icache slot).inum.toNat / DINODE_CNT_PER_BLOCK)).setDinode
      ((mount.icache slot).inum.toNat % DINODE_CNT_PER_BLOCK) (mount.icache slot).di)

theorem iupdate_yields (idle : mount.held = [])
    (holds : post () { mount with disk := mount.dinodeWritten slot }) :
    Yields (iupdate slot) mount post := by
  simp only [iupdate, yields_bind, yields_get, yields_getInode, yields_bread, yields_bwrite, idle]
  refine ⟨List.not_mem_nil, by decide, List.mem_cons_self, yields_brelse_head rfl ?_⟩
  rw [← idle]
  exact holds

end Tnix.Fs
