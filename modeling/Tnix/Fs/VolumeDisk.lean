import Tnix.Fs.Rules
import Tnix.Fs.Volume

/-! # Disk accesses and the volume

Rules for `fs.c`, and what a write to a region of the disk does to the volume. -/

namespace Tnix.Fs

open Function Program
variable {Task : Type} {mount : Mount Task}

/-! ## Pointers of a cached inode -/

theorem ensures_iblockAt {slot : Fin NINODE} {i : Nat} {post : UInt32 → Mount Task → Prop} :
    Ensures (iblockAt slot i) mount post ↔
      (i < NDIRECT + NINDIRECT → post ((mount.icache slot).di.pointer i) mount) := by
  simp only [iblockAt, ensures_bind, ensures_getInode]
  split
  case isTrue inRange =>
    rw [ensures_pure, Dinode.pointer, dif_pos inRange]
    exact ⟨fun holds _ => holds, fun holds => holds inRange⟩
  case isFalse outside =>
    rw [ensures_throw]
    exact ⟨fun _ inRange => absurd inRange outside, fun _ => trivial⟩

theorem ensures_setIblock {slot : Fin NINODE} {i : Nat} {blockno : UInt32}
    {post : Unit → Mount Task → Prop} :
    Ensures (setIblock slot i blockno) mount post ↔ (i < NDIRECT + NINDIRECT → post () { mount with
        icache := update mount.icache slot { mount.icache slot with
          di := (mount.icache slot).di.setPointer i blockno } }) := by
  simp only [setIblock, ensures_bind, ensures_getInode]
  split
  case isTrue inRange =>
    rw [ensures_setDi, Dinode.setPointer, dif_pos inRange]
    exact ⟨fun holds _ => holds, fun holds => holds inRange⟩
  case isFalse outside =>
    rw [ensures_throw]
    exact ⟨fun _ inRange => absurd inRange outside, fun _ => trivial⟩

/-! ## Allocation in a map -/

def mapBit (disk : Nat → Block) (base n : Nat) : Bool :=
  (disk (base + n / BIT_CNT_PER_BLOCK)).getLsbD (n % BIT_CNT_PER_BLOCK)

/-- The map with one bit changed. -/
structure MapWrite (disk disk' : Nat → Block) (base n : Nat) (value : Bool) : Prop where
  elsewhere : ∀ blockno, blockno ≠ base + n / BIT_CNT_PER_BLOCK → disk' blockno = disk blockno
  bit : ∀ other, mapBit disk' base other = if other = n then value else mapBit disk base other

theorem MapWrite.of_bit {disk : Nat → Block} {base : Nat} (i t : Nat) {value : Bool}
    {block : Block} (inBlock : t < BIT_CNT_PER_BLOCK) (bits : ∀ index, block.getLsbD index =
      if index = t then value else (disk (base + i)).getLsbD index) :
    MapWrite disk (update disk (base + i) block) base (i * BIT_CNT_PER_BLOCK + t) value := by
  have blockOf : (i * BIT_CNT_PER_BLOCK + t) / BIT_CNT_PER_BLOCK = i := by
    simp only [BIT_CNT_PER_BLOCK, BSIZE] at inBlock ⊢
    omega
  constructor
  · intro blockno different
    rw [blockOf] at different
    exact update_of_ne different block disk
  · intro other
    rw [mapBit]
    by_cases same : other / BIT_CNT_PER_BLOCK = i
    · rw [same, update_self, bits]
      have here : other % BIT_CNT_PER_BLOCK = t ↔ other = i * BIT_CNT_PER_BLOCK + t := by
        simp only [BIT_CNT_PER_BLOCK, BSIZE] at inBlock same ⊢
        omega
      simp [here, mapBit, same]
    · have apart : base + other / BIT_CNT_PER_BLOCK ≠ base + i := by omega
      have there : other ≠ i * BIT_CNT_PER_BLOCK + t := by
        rintro rfl
        exact same blockOf
      rw [update_of_ne apart, if_neg there, mapBit]

theorem mapBit_add {disk : Nat → Block} {base start t : Nat} (inBlock : t < BIT_CNT_PER_BLOCK) :
    mapBit disk base (start * BIT_CNT_PER_BLOCK + t) = (disk (start + base)).getLsbD t := by
  rw [mapBit, Nat.mul_comm, Nat.mul_add_div (by decide), Nat.mul_add_mod,
    Nat.div_eq_of_lt inBlock, Nat.mod_eq_of_lt inBlock, Nat.add_zero, Nat.add_comm base]

theorem mapAllocFrom_ensures (readNth : Nat → FsM Task IoBuf) (exhausted : String) {base : Nat}
    {sb : Superblock} (reads : ∀ (i : Nat) {mount : Mount Task} {post : IoBuf → Mount Task → Prop},
      mount.sb = sb → Ensures (bread (i + base)) mount post → Ensures (readNth i) mount post) :
    ∀ (remaining start : Nat) (mount : Mount Task), mount.sb = sb →
      Ensures (mapAllocFrom readNth exhausted remaining start) mount
        fun (i, j, k) final => ∃ disk held,
          final = { mount with disk := disk, held := held } ∧
          j < BSIZE / 8 ∧ k < 64 ∧ i < start + remaining ∧
          mapBit mount.disk base (i * BIT_CNT_PER_BLOCK + (64 * j + k)) = false ∧
          (∀ lower, start * BIT_CNT_PER_BLOCK ≤ lower →
            lower < i * BIT_CNT_PER_BLOCK + (64 * j + k) → mapBit mount.disk base lower = true) ∧
          MapWrite mount.disk disk base (i * BIT_CNT_PER_BLOCK + (64 * j + k)) true := by
  intro remaining
  induction remaining with
  | zero =>
    intro start mount _
    simp only [mapAllocFrom, ensures_throw]
  | succ remaining induction =>
    intro start mount sameSb
    rw [mapAllocFrom, ensures_bind]
    refine reads start sameSb ?_
    rw [ensures_bread]
    intro _ _
    cases found : Block.openSection (mount.disk (start + base)) with
    | none =>
      simp only [ensures_bind, ensures_brelse]
      intro _
      refine Ensures.mono (induction (start + 1) _ sameSb) ?_
      rintro ⟨i, j, k⟩ final ⟨disk, held, state, inBlock, inWord, inMap, isClear, lowerSet, wrote⟩
      refine ⟨disk, held, state, inBlock, inWord, by omega, isClear, ?_, wrote⟩
      intro lower atLeast isLower
      by_cases later : (start + 1) * BIT_CNT_PER_BLOCK ≤ lower
      · exact lowerSet lower later isLower
      · have blockOf : lower / BIT_CNT_PER_BLOCK = start := by
          simp only [BIT_CNT_PER_BLOCK, BSIZE] at atLeast later ⊢
          omega
        rw [mapBit, blockOf, Nat.add_comm base start]
        apply Block.openSection_eq_none found
        exact Nat.mod_lt lower (by simp [BIT_CNT_PER_BLOCK, BSIZE])
    | some j =>
      rcases Block.openSection_eq_some found with ⟨inBlock, isOpen, lowerSet⟩
      cases bit : openBit (Block.u64 (mount.disk (start + base)) j) with
      | none => exact absurd bit (openBit_ne_none isOpen)
      | some k =>
        rcases openBit_eq_some bit with ⟨inWord, isClear, lowerBits⟩
        simp only [bit, ensures_bind, ensures_bwrite, ensures_brelse, ensures_pure]
        intro _ _
        have inMap : 64 * j + k < BIT_CNT_PER_BLOCK := by
          simp only [BIT_CNT_PER_BLOCK, BSIZE] at inBlock ⊢
          omega
        refine ⟨_, _, rfl, inBlock, inWord, by omega, ?_, ?_, ?_⟩
        · rw [mapBit_add inMap, ← Block.getLsbD_u64 _ _ inWord, isClear]
        · intro lower atLeast isLower
          have split : start * BIT_CNT_PER_BLOCK + (lower - start * BIT_CNT_PER_BLOCK) =
              lower := by omega
          rw [← split, mapBit_add (by omega)]
          by_cases before : lower - start * BIT_CNT_PER_BLOCK < 64 * j
          · exact lowerSet _ before
          · have inSection : lower - start * BIT_CNT_PER_BLOCK =
                64 * j + (lower - start * BIT_CNT_PER_BLOCK - 64 * j) := by omega
            rw [inSection, ← Block.getLsbD_u64 _ _ (by omega)]
            exact lowerBits _ (by omega)
        · rw [Nat.add_comm start base]
          apply MapWrite.of_bit start (64 * j + k) inMap
          intro index
          rw [Block.setU64, Block.u64]
          apply BitField.getLsbD_put_set _ inWord
          simp only [BSIZE] at inBlock
          omega

structure Allocated (mount : Mount Task) (disk : Nat → Block) (blockno : UInt32) : Prop where
  isData : mount.sb.IsData blockno
  isFree : mount.volume.bmap blockno = false
  lower : ∀ other, mount.sb.IsData other → other.toNat < blockno.toNat →
    mount.volume.bmap other = true
  wrote : MapWrite mount.disk disk mount.sb.bmap (blockno.toNat - mount.sb.blocks) true

theorem bmap_eq_mapBit {blockno : UInt32} (isData : mount.sb.IsData blockno) :
    mount.volume.bmap blockno =
      mapBit mount.disk mount.sb.bmap (blockno.toNat - mount.sb.blocks) := by
  simp only [Mount.volume, isData, decide_true, Bool.true_and, mapBit]

theorem balloc_marks (numbered : mount.sb.Numbered) :
    Ensures balloc mount fun blockno final => ∃ p disk held,
      final = { mount with disk := disk, held := held } ∧ p < mount.sb.bmapBits ∧
      blockno.toNat = mount.sb.blocks + p ∧ mapBit mount.disk mount.sb.bmap p = false ∧
      (∀ lower < p, mapBit mount.disk mount.sb.bmap lower = true) ∧
      MapWrite mount.disk disk mount.sb.bmap p true := by
  simp only [balloc, ensures_bind, ensures_get]
  have fits := numbered.fits
  refine (mapAllocFrom_ensures readNthBmap "balloc: space exhausted"
    (fun i _ _ sameSb ensures => ensures_readNthBmap.mpr fun _ => sameSb ▸ ensures)
    (mount.sb.blocks - mount.sb.bmap) 0 mount rfl).mono ?_
  rintro ⟨i, j, k⟩ final ⟨disk, held, state, inBlock, inWord, inMap, isClear, lowerSet, wrote⟩
  rw [ensures_pure]
  generalize position : i * BIT_CNT_PER_BLOCK + (64 * j + k) = n at isClear lowerSet wrote
  have inRange : n < mount.sb.bmapBits := by
    simp only [Superblock.bmapBits, BIT_CNT_PER_BLOCK, BSIZE] at inBlock inMap position ⊢
    omega
  have number : (UInt32.ofNat (i * BIT_CNT_PER_BLOCK + j * 64 + k + mount.sb.blocks)).toNat =
      mount.sb.blocks + n := by
    have sum : i * BIT_CNT_PER_BLOCK + j * 64 + k = n := by omega
    rw [sum, Nat.add_comm, UInt32.toNat_ofNat']
    exact Nat.mod_eq_of_lt (by omega)
  exact ⟨n, disk, held, state, inRange, number, isClear, fun lower => lowerSet lower (by omega),
    wrote⟩

theorem balloc_ensures (geometry : mount.sb.Geometry) :
    Ensures balloc mount fun blockno final => ∃ disk held,
      final = { mount with disk := disk, held := held } ∧ Allocated mount disk blockno := by
  refine Ensures.mono (balloc_marks geometry.numbered) ?_
  rintro blockno final ⟨p, disk, held, state, inRange, number, isClear, lowerSet, wrote⟩
  have offset : blockno.toNat - mount.sb.blocks = p := by omega
  have isData : mount.sb.IsData blockno := by
    rw [Superblock.bmapBits] at inRange
    rw [Superblock.IsData, number]
    omega
  refine ⟨disk, held, state, isData, ?_, ?_, ?_⟩
  · rw [bmap_eq_mapBit isData, offset, isClear]
  · intro lower lowerData isLower
    rw [bmap_eq_mapBit lowerData]
    have := lowerData.1
    exact lowerSet _ (by omega)
  · rwa [offset]

def iallocNumber (n : Nat) : Nat :=
  n / BIT_CNT_PER_BLOCK * BIT_CNT_PER_BLOCK + n % BIT_CNT_PER_BLOCK / 64 * 8 + n % 64

theorem iallocNumber_of_low {n : Nat} (low : n % BIT_CNT_PER_BLOCK < 64) :
    iallocNumber n = n := by
  simp only [iallocNumber, BIT_CNT_PER_BLOCK, BSIZE] at low ⊢
  omega

theorem iallocNumber_lt {n : Nat} (high : ¬ n % BIT_CNT_PER_BLOCK < 64) :
    iallocNumber n < n := by
  simp only [iallocNumber, BIT_CNT_PER_BLOCK, BSIZE] at high ⊢
  omega

structure FirstMarked (mount : Mount Task) (disk : Nat → Block) (n : Nat) : Prop where
  inMap : n < mount.sb.inodeCount
  isClear : mapBit mount.disk mount.sb.imap n = false
  lower : ∀ lower < n, mapBit mount.disk mount.sb.imap lower = true
  wrote : MapWrite mount.disk disk mount.sb.imap n true

theorem ialloc_ensures :
    Ensures ialloc mount fun inum final => ∃ n disk held,
      final = { mount with disk := disk, held := held } ∧ FirstMarked mount disk n ∧
        inum = UInt32.ofNat (iallocNumber n) := by
  simp only [ialloc, ensures_bind, ensures_get]
  refine (mapAllocFrom_ensures readNthImap "ialloc: dinode exhausted"
    (fun i _ _ sameSb ensures => ensures_readNthImap.mpr fun _ => sameSb ▸ ensures)
    (mount.sb.inodes - mount.sb.imap) 0 mount rfl).mono ?_
  rintro ⟨i, j, k⟩ final ⟨disk, held, state, inBlock, inWord, inMap, isClear, lowerSet, wrote⟩
  rw [ensures_pure]
  generalize position : i * BIT_CNT_PER_BLOCK + (64 * j + k) = n at isClear lowerSet wrote
  have inRange : n < mount.sb.inodeCount := by
    simp only [Superblock.inodeCount, BIT_CNT_PER_BLOCK, BSIZE] at inBlock inMap position ⊢
    omega
  have number : i * BIT_CNT_PER_BLOCK + j * 8 + k = iallocNumber n := by
    have inside : 64 * j + k < BIT_CNT_PER_BLOCK := by
      simp only [BIT_CNT_PER_BLOCK, BSIZE] at inBlock ⊢
      omega
    have block : n / BIT_CNT_PER_BLOCK = i := by
      rw [← position, Nat.mul_comm, Nat.mul_add_div (by decide), Nat.div_eq_of_lt inside,
        Nat.add_zero]
    have bit : n % BIT_CNT_PER_BLOCK = 64 * j + k := by
      rw [← position, Nat.mul_comm, Nat.mul_add_mod, Nat.mod_eq_of_lt inside]
    have word : n % 64 = k := by
      rw [← Nat.mod_mod_of_dvd n (show 64 ∣ BIT_CNT_PER_BLOCK by decide), bit]
      omega
    rw [iallocNumber, block, bit, word]
    omega
  rw [number]
  exact ⟨n, disk, held, state, ⟨inRange, isClear, fun lower => lowerSet lower (by omega), wrote⟩,
    rfl⟩

/-! ## Regions -/

section
variable {mount' : Mount Task} (sameSb : mount'.sb = mount.sb)
include sameSb

theorem volume_imap_congr (same : ∀ blockno, mount.sb.imap ≤ blockno → blockno < mount.sb.inodes →
      mount'.disk blockno = mount.disk blockno) :
    mount'.volume.imap = mount.volume.imap := by
  funext inum
  simp only [Mount.volume, sameSb]
  by_cases inMap : inum.toNat < mount.sb.inodeCount
  · have inRegion : mount.sb.imap + inum.toNat / BIT_CNT_PER_BLOCK < mount.sb.inodes := by
      simp only [Superblock.inodeCount, BIT_CNT_PER_BLOCK, BSIZE] at inMap ⊢
      omega
    rw [same _ (Nat.le_add_right _ _) inRegion]
  · simp only [inMap, decide_false, Bool.false_and]

theorem volume_bmap_congr (same : ∀ blockno, mount.sb.bmap ≤ blockno → blockno < mount.sb.blocks →
      mount'.disk blockno = mount.disk blockno) :
    mount'.volume.bmap = mount.volume.bmap := by
  funext blockno
  simp only [Mount.volume, sameSb]
  by_cases isData : mount.sb.IsData blockno
  · have inRegion : mount.sb.bmap + (blockno.toNat - mount.sb.blocks) / BIT_CNT_PER_BLOCK <
        mount.sb.blocks := by
      simp only [Superblock.IsData, BIT_CNT_PER_BLOCK, BSIZE] at isData ⊢
      omega
    rw [same _ (Nat.le_add_right _ _) inRegion]
  · simp only [isData, decide_false, Bool.false_and]

theorem volume_data_congr
    (same : ∀ blockno, mount.sb.blocks ≤ blockno → mount'.disk blockno = mount.disk blockno) :
    mount'.volume.data = mount.volume.data := by
  funext blockno
  simp only [Mount.volume, sameSb]
  by_cases isData : mount.sb.IsData blockno
  · rw [same _ isData.1]
  · rw [if_neg isData, if_neg isData]

section
variable (geometry : mount.sb.Geometry)
include geometry

theorem volume_ino_congr (same : ∀ blockno, mount.sb.inodes ≤ blockno → blockno < mount.sb.bmap →
      mount'.disk blockno = mount.disk blockno) : mount'.volume.ino = mount.volume.ino := by
  funext inum
  simp only [Mount.volume, sameSb]
  by_cases inMap : inum.toNat < mount.sb.inodeCount
  · have inRegion : mount.sb.inodes + inum.toNat / DINODE_CNT_PER_BLOCK < mount.sb.bmap := by
      have table := geometry.table
      simp only [DINODE_CNT_PER_BLOCK, BSIZE] at table ⊢
      omega
    rw [same _ (Nat.le_add_right _ _) inRegion]
  · rw [if_neg inMap, if_neg inMap]

theorem volume_bmap_write {n : Nat} {value : Bool}
    (inMap : n < (mount.sb.blocks - mount.sb.bmap) * BIT_CNT_PER_BLOCK)
    (wrote : MapWrite mount.disk mount'.disk mount.sb.bmap n value) :
    mount'.volume = mount.volume.setBmap (UInt32.ofNat (n + mount.sb.blocks)) value := by
  have address : mount.sb.bmap + n / BIT_CNT_PER_BLOCK < mount.sb.blocks := by
    simp only [BIT_CNT_PER_BLOCK, BSIZE] at inMap ⊢
    omega
  have before := geometry.inodes_le
  have first := geometry.imap_le
  have blocksFit := geometry.blocks_fit
  have inRegion := Nat.le_add_right mount.sb.bmap (n / BIT_CNT_PER_BLOCK)
  have fits : (UInt32.ofNat (n + mount.sb.blocks)).toNat = n + mount.sb.blocks := by
    rw [UInt32.toNat_ofNat']
    exact Nat.mod_eq_of_lt (by omega)
  apply Volume.ext
  · exact volume_imap_congr sameSb fun blockno _ _ => wrote.elsewhere blockno (by omega)
  · funext blockno
    have bit := wrote.bit (blockno.toNat - mount.sb.blocks)
    simp only [mapBit] at bit
    rw [Volume.setBmap_bmap]
    simp only [Mount.volume, sameSb, bit]
    by_cases same : blockno = UInt32.ofNat (n + mount.sb.blocks)
    · subst same
      have isData : mount.sb.IsData (UInt32.ofNat (n + mount.sb.blocks)) := by
        rw [Superblock.IsData, fits]
        omega
      simp only [fits, isData, Nat.add_sub_cancel, decide_true, Bool.true_and, if_true, update_self]
    · rw [update_of_ne same]
      by_cases isData : mount.sb.IsData blockno
      · have different : blockno.toNat - mount.sb.blocks ≠ n := by
          intro equal
          apply same
          rw [← UInt32.toNat_inj, fits]
          have := isData.1
          omega
        rw [if_neg different]
      · simp only [isData, decide_false, Bool.false_and]
  · exact volume_ino_congr sameSb geometry
      fun blockno _ _ => wrote.elsewhere blockno (by omega)
  · exact volume_data_congr sameSb fun blockno _ => wrote.elsewhere blockno (by omega)

theorem volume_data_write {blockno : UInt32} {block : Block} (isData : mount.sb.IsData blockno)
    (wrote : mount'.disk = update mount.disk blockno.toNat block) :
    mount'.volume = mount.volume.setData blockno block := by
  have elsewhere : ∀ other, other ≠ blockno.toNat → mount'.disk other = mount.disk other := by
    intro other different
    rw [wrote, update_of_ne different]
  have first := geometry.imap_le
  have before := geometry.inodes_le
  have after := geometry.bmap_le
  have region := isData.1
  apply Volume.ext
  · exact volume_imap_congr sameSb fun other _ _ => elsewhere other (by omega)
  · exact volume_bmap_congr sameSb fun other _ _ => elsewhere other (by omega)
  · exact volume_ino_congr sameSb geometry fun other _ _ => elsewhere other (by omega)
  · funext other
    rw [Volume.setData_data]
    simp only [Mount.volume, sameSb]
    by_cases same : other = blockno
    · subst same
      rw [if_pos isData, wrote, update_self, update_self]
    · have different : other.toNat ≠ blockno.toNat := fun equal => same (UInt32.toNat_inj.mp equal)
      rw [elsewhere _ different, update_of_ne same]

end

end
end Tnix.Fs
