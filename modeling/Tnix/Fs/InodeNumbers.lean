import Tnix.Fs.Returns

/-! # Inode numbers

`ialloc` scans the inode map in words of 64 bits; `ifree` and `iexist` find the bit of a number
a byte at a time. -/

namespace Tnix.Fs

open Function Program
variable {Task : Type} {mount : Mount Task} {slot : Fin NINODE}

def Mount.imapBit (mount : Mount Task) (n : Nat) : Bool := mapBit mount.disk mount.sb.imap n

/-! ## What `ifree` does to the map -/

/-- The block numbers that `itrunc` comes across are those of data blocks. -/
structure DataTree (sb : Superblock) (disk : Nat → Block) (di : Dinode) : Prop where
  pointer : ∀ i < NDIRECT + NINDIRECT, di.pointer i ≠ 0 → sb.IsData (di.pointer i)
  word : ∀ i < NDIRECT + NINDIRECT, NDIRECT ≤ i → di.pointer i ≠ 0 →
    ∀ j < IDX_CNT_PER_INDIRECT_BLCOK, (disk (di.pointer i).toNat).u32 j ≠ 0 →
      sb.IsData ((disk (di.pointer i).toNat).u32 j)

instance (sb : Superblock) (disk : Nat → Block) (di : Dinode) :
    Decidable (DataTree sb disk di) :=
  decidable_of_iff ((∀ i < NDIRECT + NINDIRECT, di.pointer i ≠ 0 → sb.IsData (di.pointer i)) ∧
      ∀ i < NDIRECT + NINDIRECT, NDIRECT ≤ i → di.pointer i ≠ 0 →
        ∀ j < IDX_CNT_PER_INDIRECT_BLCOK, (disk (di.pointer i).toNat).u32 j ≠ 0 →
          sb.IsData ((disk (di.pointer i).toNat).u32 j))
    ⟨fun both => ⟨both.1, both.2⟩, fun tree => ⟨tree.pointer, tree.word⟩⟩

/-- What freeing the blocks of an inode leaves as it is. -/
structure Truncating (mount final : Mount Task) (slot : Fin NINODE) : Prop where
  sb : final.sb = mount.sb
  inum : (final.icache slot).inum = (mount.icache slot).inum
  disk : ∀ blockno < mount.sb.inodes, final.disk blockno = mount.disk blockno
  tree : DataTree final.sb final.disk (final.icache slot).di

namespace Truncating

variable {final : Mount Task}

section
variable (truncating : Truncating mount final slot)
include truncating

theorem ofHeld (held : List Nat) : Truncating mount { final with held := held } slot :=
  ⟨truncating.sb, truncating.inum, truncating.disk, truncating.tree⟩

theorem write {blockno : Nat} {block : Block}
    (behind : mount.sb.inodes ≤ blockno) (words : ∀ i < NDIRECT + NINDIRECT,
      ((final.icache slot).di.pointer i).toNat = blockno →
      (final.icache slot).di.pointer i ≠ 0 → block = 0#8192) :
    Truncating mount { final with disk := update final.disk blockno block } slot := by
  refine ⟨truncating.sb, truncating.inum, ?_, truncating.tree.pointer, ?_⟩
  · intro other before
    have different : other ≠ blockno := by omega
    simp only [update_of_ne different]
    exact truncating.disk other before
  · intro i inRange isIndex nonzero j inBlock
    by_cases same : ((final.icache slot).di.pointer i).toNat = blockno
    · simp only [same, update_self, words i inRange same nonzero, Block.u32_zero]
      exact fun nonzero => absurd rfl nonzero
    · simp only [update_of_ne same]
      exact truncating.tree.word i inRange isIndex nonzero j inBlock

theorem setDi {di : Dinode}
    (fewer : ∀ i, di.pointer i = (final.icache slot).di.pointer i ∨ di.pointer i = 0) :
    Truncating mount { final with
      icache := update final.icache slot { final.icache slot with di := di } } slot := by
  refine ⟨truncating.sb, ?_, truncating.disk, ?_, ?_⟩
  · simp only [update_self]
    exact truncating.inum
  · simp only [update_self]
    intro i inRange nonzero
    rcases fewer i with same | isZero
    · rw [same] at nonzero ⊢
      exact truncating.tree.pointer i inRange nonzero
    · exact absurd isZero nonzero
  · simp only [update_self]
    intro i inRange isIndex nonzero
    rcases fewer i with same | isZero
    · rw [same] at nonzero ⊢
      exact truncating.tree.word i inRange isIndex nonzero
    · exact absurd isZero nonzero

end

variable (geometry : mount.sb.Geometry)
include geometry

theorem bfree (truncating : Truncating mount final slot) (blockno : UInt32) :
    Ensures (Fs.bfree blockno) final fun _ after => Truncating mount after slot := by
  simp only [Fs.bfree, ensures_bind, ensures_get, ensures_readNthBmap, ensures_bread]
  intro inMap _ _
  split
  case isTrue => exact ensures_throw.mpr trivial
  case isFalse =>
    simp only [ensures_bind, ensures_bwrite, ensures_brelse]
    intro _ _
    have before := geometry.inodes_le
    rw [← truncating.sb] at before
    refine Truncating.ofHeld (Truncating.write (truncating.ofHeld _) ?_ ?_) _
    · rw [← truncating.sb]
      exact Nat.le_add_left_of_le before
    · -- The block map is not an index block.
      intro i inRange same nonzero
      have region := (truncating.tree.pointer i inRange nonzero).1
      generalize (blockno - UInt32.ofNat final.sb.blocks).toNat / BIT_CNT_PER_BLOCK = part
        at inMap same
      simp only at same
      omega

theorem clearBlock (truncating : Truncating mount final slot) {blockno : UInt32}
    (isData : mount.sb.IsData blockno) :
    Ensures (Fs.clearBlock blockno) final fun _ after => Truncating mount after slot := by
  simp only [Fs.clearBlock, bzero, ensures_bind, ensures_bread, ensures_bwrite, ensures_brelse]
  intro _ _ _ _
  refine bfree geometry (Truncating.ofHeld (Truncating.write (truncating.ofHeld _) ?_ ?_) _) _
  · have first := geometry.inodes_le
    have second := geometry.bmap_le
    have region := isData.1
    omega
  · exact fun _ _ _ _ => rfl

theorem itruncIndexFrom {index : Block}
    (words : ∀ j < IDX_CNT_PER_INDIRECT_BLCOK, index.u32 j ≠ 0 → mount.sb.IsData (index.u32 j))
    (remaining : Nat) : ∀ (j : Nat) (final : Mount Task),
      j + remaining ≤ IDX_CNT_PER_INDIRECT_BLCOK → Truncating mount final slot →
      Ensures (Fs.itruncIndexFrom index remaining j) final fun _ after =>
        Truncating mount after slot := by
  induction remaining with
  | zero =>
    intro j final inBlock truncating
    rw [Fs.itruncIndexFrom, ensures_pure]
    exact truncating
  | succ remaining induction =>
    intro j final inBlock truncating
    rw [Fs.itruncIndexFrom]
    split
    case isTrue => exact ensures_pure.mpr truncating
    case isFalse nonzero =>
      rw [ensures_bind]
      refine Ensures.mono (clearBlock geometry truncating (words j (by omega) nonzero)) ?_
      exact fun _ after cleared => induction (j + 1) after (by omega) cleared

theorem itruncFrom (remaining : Nat) : ∀ (i : Nat) (final : Mount Task),
    Truncating mount final slot →
      Ensures (Fs.itruncFrom slot remaining i) final fun _ after =>
        Truncating mount after slot := by
  induction remaining with
  | zero =>
    intro i final truncating
    rw [Fs.itruncFrom, ensures_pure]
    exact truncating
  | succ remaining induction =>
    intro i final truncating
    rw [Fs.itruncFrom, ensures_bind, ensures_iblockAt]
    intro inRange
    generalize pointed : (final.icache slot).di.pointer i = blockno
    split
    case isTrue => exact ensures_pure.mpr truncating
    case isFalse nonzero =>
      have isData : mount.sb.IsData blockno := by
        rw [← truncating.sb, ← pointed]
        exact truncating.tree.pointer i inRange (by rwa [pointed])
      rw [ensures_bind, ensures_bread]
      intro _ _
      have opened := truncating.ofHeld (blockno.toNat :: final.held)
      -- What follows the loop over the index block, if there is one.
      have freed : ∀ state, Truncating mount state slot → Ensures (do
          bzero ⟨blockno.toNat, final.disk blockno.toNat⟩
          brelse ⟨blockno.toNat, final.disk blockno.toNat⟩
          Fs.bfree blockno
          setIblock slot i 0
          Fs.itruncFrom slot remaining (i + 1)) state
          fun _ after => Truncating mount after slot := by
        intro state truncating
        simp only [bzero, ensures_bind, ensures_bwrite, ensures_brelse]
        intro _ _
        have first := geometry.inodes_le
        have second := geometry.bmap_le
        have region := isData.1
        have cleared : Truncating mount { state with
            disk := update state.disk blockno.toNat 0,
            held := state.held.erase blockno.toNat } slot :=
          Truncating.ofHeld (truncating.write (by omega) fun _ _ _ _ => rfl) _
        refine Ensures.mono (bfree geometry cleared blockno) ?_
        intro _ after free
        rw [ensures_setIblock]
        intro _
        refine induction (i + 1) _ (free.setDi ?_)
        intro other
        rw [Dinode.pointer_setPointer _ inRange]
        split
        · exact .inr rfl
        · exact .inl rfl
      split
      case isTrue isIndex =>
        rw [ensures_bind]
        refine Ensures.mono (itruncIndexFrom geometry ?_ _ 0 _ (by decide) opened) fun _ => freed
        rw [← truncating.sb, ← pointed]
        exact truncating.tree.word i inRange isIndex (by rwa [pointed])
      case isFalse => exact freed _ opened

end Truncating

theorem ifree_ensures (geometry : mount.sb.Geometry)
    (tree : DataTree mount.sb mount.disk (mount.icache slot).di) :
    Ensures (ifree slot) mount fun _ final => final.sb = mount.sb ∧
      ∀ n < mount.sb.inodeCount, final.imapBit n =
        if n = (mount.icache slot).inum.toNat then false else mount.imapBit n := by
  have start : Truncating mount mount slot := ⟨rfl, rfl, fun _ _ => rfl, tree⟩
  simp only [ifree, itrunc, ensures_bind, ensures_getInode, ensures_setDi]
  refine Ensures.mono (Truncating.itruncFrom geometry _ _ _ (start.setDi fun _ => .inl rfl)) ?_
  intro _ truncated truncating
  simp only [iupdate, ensures_bind, ensures_get, ensures_getInode, ensures_bread,
    ensures_bwrite, ensures_brelse, update_self, truncating.inum, ensures_readNthImap]
  intro _ _ _ _ inMap _ _ _ _
  generalize (mount.icache slot).inum.toNat = number at inMap ⊢
  refine ⟨truncating.sb, ?_⟩
  intro n inRange
  generalize Block.setDinode _ _ _ = dinodes
  have place : number / BIT_CNT_PER_BLOCK * BIT_CNT_PER_BLOCK + number % BIT_CNT_PER_BLOCK =
      number := by
    rw [Nat.mul_comm]
    exact Nat.div_add_mod number BIT_CNT_PER_BLOCK
  have inBlock : number % BIT_CNT_PER_BLOCK < BIT_CNT_PER_BLOCK := Nat.mod_lt _ (by decide)
  generalize updated : update truncated.disk
    (truncated.sb.inodes + number / DINODE_CNT_PER_BLOCK) dinodes = disk
  have wrote := MapWrite.of_bit (number / BIT_CNT_PER_BLOCK) (number % BIT_CNT_PER_BLOCK) inBlock
    (Block.getLsbD_clear_u8 (disk (truncated.sb.imap + number / BIT_CNT_PER_BLOCK)) inBlock)
  rw [place] at wrote
  have before : mapBit disk mount.sb.imap n = mapBit mount.disk mount.sb.imap n := by
    have inMap : mount.sb.imap + n / BIT_CNT_PER_BLOCK < mount.sb.inodes := by
      simp only [Superblock.inodeCount, BIT_CNT_PER_BLOCK, BSIZE] at inRange ⊢
      omega
    have notTable : mount.sb.imap + n / BIT_CNT_PER_BLOCK ≠
        truncated.sb.inodes + number / DINODE_CNT_PER_BLOCK := by
      rw [truncating.sb]
      exact Nat.ne_of_lt (Nat.lt_add_right _ inMap)
    rw [mapBit, mapBit, ← updated, update_of_ne notTable, truncating.disk _ inMap]
  have bit := wrote.bit n
  rw [truncating.sb, before] at bit
  rw [Mount.imapBit, Mount.imapBit, Nat.add_comm (number / BIT_CNT_PER_BLOCK), truncating.sb]
  exact bit

theorem ifree_returns (idle : mount.held = []) (noBlocks : (mount.icache slot).di.pointer 0 = 0)
    (inMap : (mount.icache slot).inum.toNat < mount.sb.inodeCount) :
    Yields (ifree slot) mount fun _ _ => True := by
  have inBlocks : (mount.icache slot).inum.toNat / BIT_CNT_PER_BLOCK <
      mount.sb.inodes - mount.sb.imap := by
    rw [Superblock.inodeCount] at inMap
    exact (Nat.div_lt_iff_lt_mul (by decide)).mpr inMap
  have sameBlocks : ∀ di : Dinode, ({ di with fsize := 0 } : Dinode).pointer 0 = di.pointer 0 :=
    fun _ => rfl
  simp only [ifree, itrunc, yields_bind, yields_getInode, yields_setDi]
  rw [show NDIRECT + NINDIRECT = 14 + 1 from rfl, itruncFrom]
  simp only [yields_bind, yields_iblockAt, update_self, sameBlocks, noBlocks, if_true,
    yields_pure, iupdate, yields_get, yields_getInode, yields_bread, yields_bwrite, idle]
  refine ⟨by decide, List.not_mem_nil, by decide, List.mem_cons_self, yields_brelse_head rfl ?_⟩
  simp only [update_self]
  refine yields_readNthImap inBlocks (yields_bread.mpr ⟨List.not_mem_nil, ?_, ?_⟩)
  · exact show 0 < NIOBUF by decide
  · simp only
    exact ⟨List.mem_cons_self, yields_brelse_head rfl trivial⟩

/-! ## One call of `ialloc` -/

def HasClear (mount : Mount Task) : Prop :=
  ∃ n < mount.sb.inodeCount, mount.imapBit n = false

theorem ialloc_returns (geometry : mount.sb.Geometry) (idle : mount.held = [])
    (clear : HasClear mount) :
    Yields ialloc mount fun _ final => final.held = mount.held := by
  simp only [ialloc, yields_bind, yields_get]
  have ordered := geometry.imap_le
  have unlocked : Unlocked mount.held mount.sb.imap mount.sb.inodes := by
    rw [idle]
    exact unlocked_nil _ _
  have allocates := mapAllocFrom_returns readNthImap "ialloc: dinode exhausted"
    (fun i _ _ sameSb inMap yields => yields_readNthImap (by rw [sameSb]; omega) (sameSb ▸ yields))
    (mount.sb.inodes - mount.sb.imap) 0 mount rfl unlocked (by omega) ?_
  · exact allocates.mono fun _ _ same => yields_pure.mpr same
  · rcases clear with ⟨n, inMap, isClear⟩
    rw [Superblock.inodeCount] at inMap
    rw [Nat.zero_add, Nat.zero_mul]
    exact ⟨n, Nat.zero_le n, inMap, isClear⟩

/-- The first clear bit is one of the first 64 of its block. -/
def LowImap (mount : Mount Task) : Prop :=
  ∀ n < mount.sb.inodeCount, mount.imapBit n = false →
    (∀ lower < n, mount.imapBit lower = true) → n % BIT_CNT_PER_BLOCK < 64

/-- `ifree` of the inode with the number gives back the map of `mount`; it returns if the
inode has no blocks. -/
def Restores (mount final : Mount Task) (inum : UInt32) : Prop :=
  ∀ (slot : Fin NINODE) (inode : Inode Unit), inode.inum = inum →
    DataTree final.sb final.disk inode.di →
    Ensures (ifree slot) { final with icache := update final.icache slot inode }
      (fun _ after => ∀ n < mount.sb.inodeCount, after.imapBit n = mount.imapBit n) ∧
    (inode.di.pointer 0 = 0 →
      Yields (ifree slot) { final with icache := update final.icache slot inode }
        fun _ _ => True)

/-- `ialloc` returns a number whose bit it sets and was clear, it changes no other bit, and
`ifree` takes the change back. -/
def AllocExact (mount : Mount Task) : Prop :=
  Yields ialloc mount fun inum final =>
    inum.toNat < mount.sb.inodeCount ∧ mount.imapBit inum.toNat = false ∧
    (∀ n < mount.sb.inodeCount, final.imapBit n =
      if n = inum.toNat then true else mount.imapBit n) ∧ Restores mount final inum

theorem toNat_iallocNumber (geometry : mount.sb.Geometry) {n : Nat}
    (inMap : n < mount.sb.inodeCount) :
    (UInt32.ofNat (iallocNumber n)).toNat = iallocNumber n := by
  have inodesFit := geometry.inodes_fit
  have small : iallocNumber n ≤ n := by
    by_cases low : n % BIT_CNT_PER_BLOCK < 64
    · rw [iallocNumber_of_low low]
    · exact (iallocNumber_lt low).le
  rw [UInt32.toNat_ofNat']
  exact Nat.mod_eq_of_lt (by omega)

theorem allocExact_iff (geometry : mount.sb.Geometry) (idle : mount.held = [])
    (clear : HasClear mount) : AllocExact mount ↔ LowImap mount := by
  constructor
  · rintro ⟨inum, final, ran, _, isClear, _⟩ n inMap nClear lower
    rcases ialloc_ensures inum final ran with ⟨first, disk, held, _, marked, rfl⟩
    have same : n = first := by
      rcases Nat.lt_trichotomy n first with less | equal | greater
      · have isSet := marked.lower n less
        rw [Mount.imapBit, isSet] at nClear
        cases nClear
      · exact equal
      · have isSet := lower first greater
        rw [Mount.imapBit, marked.isClear] at isSet
        cases isSet
    subst same
    by_contra high
    rw [toNat_iallocNumber geometry inMap, lower _ (iallocNumber_lt high)] at isClear
    cases isClear
  · intro low
    refine ((ialloc_returns geometry idle clear).ensures ialloc_ensures).mono ?_
    rintro inum _ ⟨sameHeld, n, disk, held, rfl, marked, rfl⟩
    have number : (UInt32.ofNat (iallocNumber n)).toNat = n := by
      rw [toNat_iallocNumber geometry marked.inMap,
        iallocNumber_of_low (low n marked.inMap marked.isClear marked.lower)]
    have bits := marked.wrote.bit
    rw [number]
    refine ⟨marked.inMap, marked.isClear, fun other _ => bits other, ?_⟩
    intro slot inode sameInum tree
    constructor
    · refine Ensures.mono (ifree_ensures geometry ?_) ?_
      · simp only [update_self]
        exact tree
      · rintro _ after ⟨_, freed⟩ other inMap
        rw [freed other inMap]
        simp only [update_self, sameInum, number]
        by_cases same : other = n
        · rw [if_pos same, same]
          exact marked.isClear.symm
        · rw [if_neg same]
          exact (bits other).trans (if_neg same)
    · intro noBlocks
      refine ifree_returns (sameHeld.trans idle) ?_ ?_
      · simp only [update_self]
        exact noBlocks
      · simp only [update_self, sameInum, number]
        exact marked.inMap

/-! ## Sequences of calls -/

structure InumState (Task : Type) where
  mount : Mount Task
  out : List UInt32

/-- A call of `ialloc`, or of `ifree` with the inode that is cached in a slot by then. -/
inductive InumLabel
  | ialloc
  | ifree (slot : Fin NINODE) (inode : Inode Unit)

def inumMachine (Task : Type) : Machine (InumState Task) InumLabel where
  Initial state := state.mount.sb.Geometry ∧ state.out = []
  step state label :=
    match label with
    | .ialloc =>
      match Fs.ialloc state.mount with
      | .ok (inum, mount) => some ⟨mount, inum :: state.out⟩
      | .error _ => none
    | .ifree slot inode =>
      -- The block numbers of the inode are those of data blocks.
      if DataTree state.mount.sb state.mount.disk inode.di then
        match Fs.ifree slot { state.mount with
            icache := update state.mount.icache slot inode } with
        | .ok (_, mount) => some ⟨mount, state.out.filter (· ≠ inode.inum)⟩
        | .error _ => none
      else none

/-- `ialloc` is called only while the first clear bit is a low one. -/
def InumLabel.Low (state : InumState Task) (label : InumLabel) : Prop :=
  match label with
  | .ialloc => LowImap state.mount
  | .ifree _ _ => True

/-- The numbers that are out are distinct, and their bits are set. -/
structure OutMarked (state : InumState Task) : Prop where
  geometry : state.mount.sb.Geometry
  distinct : state.out.Nodup
  marked : ∀ inum ∈ state.out, inum.toNat < state.mount.sb.inodeCount ∧
    state.mount.imapBit inum.toNat = true

namespace OutMarked

variable {state : InumState Task}

theorem ialloc (outMarked : OutMarked state) (low : LowImap state.mount) {inum : UInt32}
    {final : Mount Task} (ran : Fs.ialloc state.mount = .ok (inum, final)) :
    OutMarked ⟨final, inum :: state.out⟩ := by
  rcases ialloc_ensures inum final ran with ⟨n, disk, held, rfl, marked, rfl⟩
  have number : (UInt32.ofNat (iallocNumber n)).toNat = n := by
    rw [toNat_iallocNumber outMarked.geometry marked.inMap,
      iallocNumber_of_low (low n marked.inMap marked.isClear marked.lower)]
  refine ⟨outMarked.geometry, List.nodup_cons.mpr ⟨?_, outMarked.distinct⟩, ?_⟩
  · intro isOut
    have isSet := (outMarked.marked _ isOut).2
    rw [number, Mount.imapBit, marked.isClear] at isSet
    cases isSet
  · intro other isOut
    rcases List.mem_cons.mp isOut with rfl | wasOut
    · rw [number]
      exact ⟨marked.inMap, (marked.wrote.bit n).trans (if_pos rfl)⟩
    · have before := outMarked.marked other wasOut
      refine ⟨before.1, (marked.wrote.bit _).trans ?_⟩
      split
      · rfl
      · exact before.2

theorem ifree (outMarked : OutMarked state) {slot : Fin NINODE} {inode : Inode Unit}
    (tree : DataTree state.mount.sb state.mount.disk inode.di) {result : Unit} {final : Mount Task}
    (ran : Fs.ifree slot { state.mount with
      icache := update state.mount.icache slot inode } = .ok (result, final)) :
    OutMarked ⟨final, state.out.filter (· ≠ inode.inum)⟩ := by
  have freed := @ifree_ensures _ { state.mount with
    icache := update state.mount.icache slot inode } slot
    outMarked.geometry (by simpa only [update_self] using tree) result final ran
  simp only [update_self] at freed
  rcases freed with ⟨sameSb, bits⟩
  refine ⟨by rw [sameSb]; exact outMarked.geometry, outMarked.distinct.filter _, ?_⟩
  intro other isOut
  rcases List.mem_filter.mp isOut with ⟨wasOut, different⟩
  have before := outMarked.marked other wasOut
  have notFreed : other.toNat ≠ inode.inum.toNat := by
    intro same
    rw [UInt32.toNat_inj.mp same] at different
    simp at different
  refine ⟨by rw [sameSb]; exact before.1, ?_⟩
  rw [bits _ before.1, if_neg notFreed]
  exact before.2

end OutMarked

theorem outMarked_of_reaches {state : InumState Task}
    (reached : (inumMachine Task).Reaches InumLabel.Low state) : OutMarked state := by
  refine reached.invariant OutMarked ?_ ?_
  · rintro ⟨mount, out⟩ ⟨geometry, rfl⟩
    exact ⟨geometry, List.nodup_nil, fun _ isOut => absurd isOut List.not_mem_nil⟩
  · intro state label next outMarked low stepped
    cases label with
    | ialloc =>
      simp only [inumMachine] at stepped
      split at stepped
      case h_1 inum final ran =>
        cases stepped
        exact outMarked.ialloc low ran
      case h_2 => cases stepped
    | ifree slot inode =>
      simp only [inumMachine] at stepped
      split at stepped
      case isTrue tree =>
        split at stepped
        case h_1 result final ran =>
          cases stepped
          exact outMarked.ifree tree ran
        case h_2 => cases stepped
      case isFalse => cases stepped

/-- One call is exact if and only if the first clear bit is a low one. In a run in which
it is at every `ialloc`, no number is handed out again before it is freed. -/
theorem inode_numbers (Task : Type) :
    (∀ mount : Mount Task, mount.sb.Geometry → mount.held = [] → HasClear mount →
      (AllocExact mount ↔ LowImap mount)) ∧
    ∀ state, (inumMachine Task).Reaches InumLabel.Low state → state.out.Nodup :=
  ⟨fun _ geometry idle clear => allocExact_iff geometry idle clear,
    fun _ reached => (outMarked_of_reaches reached).distinct⟩

def markedInodes (count : Nat) : Mount Unit where
  sb := ⟨2, 3, 700, 701⟩
  disk blockno := if blockno = 2 then BitVec.ofNat 8192 (2 ^ count - 1) else 0
  icache _ := ⟨Dinode.blank, none, 0, 0⟩
  tasks _ := none
  files _ := .zero
  pipes _ := ⟨⟨0, 0, fun _ => 0⟩, 0⟩
  devsw _ := false
  held := []

theorem geometry_markedInodes (count : Nat) : (markedInodes count).sb.Geometry := by
  have geometry : Superblock.Geometry ⟨2, 3, 700, 701⟩ :=
    ⟨by decide, by decide, by decide, by decide, by decide, by decide, by decide⟩
  exact geometry

theorem lowImap_markedInodes : LowImap (markedInodes 2) := by
  have isSet : ∀ n < 2, (markedInodes 2).imapBit n = true := by decide +kernel
  have isClear : (markedInodes 2).imapBit 2 = false := by decide +kernel
  intro n _ nClear lower
  have first : n = 2 := by
    rcases Nat.lt_trichotomy n 2 with less | equal | greater
    · rw [isSet n less] at nClear
      cases nClear
    · exact equal
    · rw [lower 2 greater] at isClear
      cases isClear
  subst first
  decide

theorem inode_numbers_markedInodes : AllocExact (markedInodes 2) ∧
    ∃ state, (inumMachine Unit).Reaches InumLabel.Low state ∧ state.out = [2] ∧
      state.out.Nodup := by
  have both := inode_numbers Unit
  have clear : HasClear (markedInodes 2) := ⟨2, by decide, by decide +kernel⟩
  refine ⟨(both.1 _ (geometry_markedInodes 2) rfl clear).mpr lowImap_markedInodes, ?_⟩
  have steps : ((inumMachine Unit).step ⟨markedInodes 2, []⟩ .ialloc).any
      (fun state => state.out = [2]) = true := by decide +kernel
  rcases (Option.any_eq_true _ _).mp steps with ⟨state, stepped, isOut⟩
  have start : (inumMachine Unit).Reaches InumLabel.Low ⟨markedInodes 2, []⟩ :=
    .initial ⟨geometry_markedInodes 2, rfl⟩
  have low : @InumLabel.Low Unit ⟨markedInodes 2, []⟩ .ialloc := lowImap_markedInodes
  have reached := Machine.Reaches.step start low stepped
  exact ⟨state, reached, of_decide_eq_true isOut, both.2 state reached⟩

/-- With 64 inodes in use `ialloc` marks the inode 64 and returns 8, which is in use. -/
theorem ialloc_returns_number_in_use :
    (ialloc (markedInodes 64)).map (fun outcome => (outcome.1, outcome.2.imapBit 64)) =
      .ok (8, true) ∧ (markedInodes 64).imapBit 8 = true := by
  decide +kernel

end Tnix.Fs
