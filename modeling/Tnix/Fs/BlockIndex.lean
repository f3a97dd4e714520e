import Tnix.Fs.Returns

/-! # The list of blocks of a file

A dinode stands for a list of block numbers: its direct blocks, followed by the entries of its
index blocks. -/

namespace Tnix.Fs

open Function Program Dinode
variable {Task : Type} {mount : Mount Task} {slot : Fin NINODE}

theorem iblockCnt_of_mod {di : Dinode} (whole : di.fsize.toNat % BSIZE = 0) :
    iblockCnt di = (di.fsize.toNat / BSIZE : Nat) := by
  rw [iblockCnt, if_pos whole]
  exact Int.sub_zero _

def maxBlocks : Nat := NDIRECT + NINDIRECT * IDX_CNT_PER_INDIRECT_BLCOK

def Dinode.blockAt (disk : Nat → Block) (di : Dinode) (k : Nat) : UInt32 :=
  if k < NDIRECT then di.pointer k
  else
    (disk (di.pointer (NDIRECT + (k - NDIRECT) / IDX_CNT_PER_INDIRECT_BLCOK)).toNat).u32
      ((k - NDIRECT) % IDX_CNT_PER_INDIRECT_BLCOK)

def Mount.blockAt (mount : Mount Task) (slot : Fin NINODE) (k : Nat) : UInt32 :=
  (mount.icache slot).di.blockAt mount.disk k

/-! ## Looking an entry up -/

theorem dataBlockGet_yields (idle : mount.held = []) {k : Nat} (inRange : k < maxBlocks) :
    Yields (dataBlockGet slot k) mount fun b final =>
      b = ⟨(mount.blockAt slot k).toNat, mount.disk (mount.blockAt slot k).toNat⟩ ∧
        final = { mount with held := [(mount.blockAt slot k).toNat] } := by
  simp only [maxBlocks, NDIRECT, NINDIRECT, IDX_CNT_PER_INDIRECT_BLCOK, BSIZE] at inRange
  rw [dataBlockGet, Mount.blockAt, Dinode.blockAt]
  split
  case isTrue direct =>
    simp only [yields_bind, yields_iblockAt, yields_bread, idle]
    exact ⟨Nat.lt_add_right _ direct, List.not_mem_nil, by decide, trivial, trivial⟩
  case isFalse indirect =>
    simp only [yields_bind, yields_iblockAt, yields_bread, idle]
    refine ⟨?_, List.not_mem_nil, by decide, yields_brelse_head rfl ?_⟩
    · simp only [NDIRECT, NINDIRECT, IDX_CNT_PER_INDIRECT_BLCOK, BSIZE] at indirect ⊢
      omega
    · exact ⟨List.not_mem_nil, show 0 < NIOBUF by decide, rfl, rfl⟩

/-- The offsets for which `blockno_of_data` stays within its arrays: the direct blocks and
the first `IDX_CNT_PER_INDIRECT_BLCOK` bytes behind them. -/
def addressable : Nat := NDIRECT * BSIZE + IDX_CNT_PER_INDIRECT_BLCOK

theorem blocknoOfData_yields (idle : mount.held = []) {off : Nat} (inside : off < addressable) :
    Yields (blocknoOfData slot off) mount fun blockno final =>
      blockno = mount.blockAt slot (off / BSIZE) ∧ final = mount := by
  simp only [addressable, NDIRECT, IDX_CNT_PER_INDIRECT_BLCOK, BSIZE] at inside
  rw [blocknoOfData, Mount.blockAt, Dinode.blockAt]
  by_cases direct : off / BSIZE < NDIRECT
  · have below : off < BSIZE * NDIRECT := by
      simp only [NDIRECT, BSIZE] at direct ⊢
      omega
    rw [if_pos below, if_pos direct, yields_iblockAt]
    exact ⟨Nat.lt_add_right _ direct, rfl, rfl⟩
  · have above : ¬ off < BSIZE * NDIRECT := by
      simp only [NDIRECT, BSIZE] at direct ⊢
      omega
    have first : (off - BSIZE * NDIRECT) / IDX_CNT_PER_INDIRECT_BLCOK = 0 := by
      simp only [NDIRECT, IDX_CNT_PER_INDIRECT_BLCOK, BSIZE] at above ⊢
      omega
    have block : off / BSIZE = NDIRECT := by
      simp only [NDIRECT, BSIZE] at direct ⊢
      omega
    rw [if_neg above, if_neg direct, block]
    simp only [first, yields_bind, yields_iblockAt, yields_bread, idle]
    refine ⟨by decide, List.not_mem_nil, by decide, yields_brelse_head rfl ?_⟩
    simp [yields_pure, IDX_CNT_PER_INDIRECT_BLCOK, BSIZE, ← idle]

/-- Behind these offsets the quotient by the number of entries, not of bytes, of an index
block leads out of the arrays. -/
theorem blocknoOfData_faults {off : Nat} (outside : addressable ≤ off) :
    Ensures (blocknoOfData slot off) mount fun _ _ => False := by
  simp only [addressable, NDIRECT, IDX_CNT_PER_INDIRECT_BLCOK, BSIZE] at outside
  have above : ¬ off < BSIZE * NDIRECT := by
    simp only [NDIRECT, BSIZE]
    omega
  have wraps : ¬ (0 ≤ ((off / BSIZE : Nat) : Int) - (NDIRECT + (off - BSIZE * NDIRECT) /
      IDX_CNT_PER_INDIRECT_BLCOK * IDX_CNT_PER_INDIRECT_BLCOK : Nat)) := by
    simp only [NDIRECT, IDX_CNT_PER_INDIRECT_BLCOK, BSIZE]
    omega
  rw [blocknoOfData, if_neg above]
  simp only [ensures_bind, ensures_iblockAt, ensures_bread, ensures_brelse]
  intro _ _ _ _
  rw [if_neg (fun inBlock => wraps inBlock.1), ensures_throw]
  trivial

/-- Both functions find the same block for a byte offset. -/
def LookupsAgree (mount : Mount Task) (slot : Fin NINODE) (off : Nat) : Prop :=
  Yields (blocknoOfData slot off) mount fun blockno _ =>
    Yields (dataBlockGet slot (off / BSIZE)) mount fun b _ => b.blockno = blockno.toNat

/-- The two lookups agree exactly in the direct blocks and in the first bytes behind them. -/
theorem lookupsAgree_iff (mount : Mount Task) (idle : mount.held = []) (slot : Fin NINODE)
    (off : Nat) : LookupsAgree mount slot off ↔ off < NDIRECT * BSIZE + 256 := by
  constructor
  · intro agree
    by_contra outside
    rcases agree with ⟨blockno, final, ran, _⟩
    exact blocknoOfData_faults (Nat.not_lt.mp outside) blockno final ran
  · intro inside
    refine (blocknoOfData_yields idle inside).mono ?_
    rintro _ _ ⟨rfl, _⟩
    have inRange : off / BSIZE < maxBlocks := by
      simp only [maxBlocks, NDIRECT, NINDIRECT, IDX_CNT_PER_INDIRECT_BLCOK, BSIZE] at inside ⊢
      omega
    refine (dataBlockGet_yields idle inRange).mono ?_
    rintro _ _ ⟨rfl, _⟩
    rfl

def thirteenBlocks : Mount Unit where
  sb := ⟨2, 3, 700, 701⟩
  disk blockno := if blockno = 713 then (0 : Block).setU32 0 714 else 0
  icache _ := ⟨⟨.REGULAR, 0, 1, 13312, fun i =>
    if i.val ≤ 12 then UInt32.ofNat (701 + i.val) else 0⟩, some (), 1, 1⟩
  tasks _ := none
  files _ := .zero
  pipes _ := ⟨⟨0, 0, fun _ => 0⟩, 0⟩
  devsw _ := false
  held := []

theorem lookupsAgree_thirteenBlocks : LookupsAgree thirteenBlocks 0 12288 :=
  (lookupsAgree_iff thirteenBlocks rfl 0 12288).mpr (by decide)

/-- Byte 12544 lies in block 12, which `data_block_get` finds. -/
theorem blocknoOfData_thirteenBlocks :
    (blocknoOfData 0 12544 thirteenBlocks).map Prod.fst = .error .bounds ∧
      (dataBlockGet 0 (12544 / BSIZE) thirteenBlocks).map (fun outcome => outcome.1.blockno) =
        .ok 714 := by
  decide +kernel

/-! ## Appending an entry -/

/-- The place of the entry that `data_block_alloc` writes. -/
def appendPlace (di : Dinode) : Nat := (iblockCnt di % 2 ^ 32).toNat

/-- What `data_block_alloc` makes of the disk and of the dinode when it stores a new block
at a place of the list. -/
inductive Stored (mount : Mount Task) (di : Dinode) (place : Nat) (blockno : UInt32) :
    (Nat → Block) → Dinode → Prop
  | direct {disk : Nat → Block} (isDirect : place < NDIRECT)
      (allocated : Allocated mount disk blockno) :
      Stored mount di place blockno disk (di.setPointer place blockno)
  | newIndex {disk disk' : Nat → Block} {index : UInt32} (indirect : ¬ place < NDIRECT)
      (first : (place - NDIRECT) % IDX_CNT_PER_INDIRECT_BLCOK = 0)
      (inRange : NDIRECT + (place - NDIRECT) / IDX_CNT_PER_INDIRECT_BLCOK < NDIRECT + NINDIRECT)
      (allocated : Allocated mount disk blockno)
      (indexed : Allocated { mount with disk := disk } disk' index) :
      Stored mount di place blockno
        (update disk' index.toNat ((disk' index.toNat).setU32 0 blockno))
        (di.setPointer (NDIRECT + (place - NDIRECT) / IDX_CNT_PER_INDIRECT_BLCOK) index)
  | inIndex {disk : Nat → Block} {index : UInt32} (indirect : ¬ place < NDIRECT)
      (partly : (place - NDIRECT) % IDX_CNT_PER_INDIRECT_BLCOK ≠ 0)
      (inRange : NDIRECT + (place - NDIRECT) / IDX_CNT_PER_INDIRECT_BLCOK < NDIRECT + NINDIRECT)
      (isIndex : di.pointer (NDIRECT + (place - NDIRECT) / IDX_CNT_PER_INDIRECT_BLCOK) = index)
      (allocated : Allocated mount disk blockno) :
      Stored mount di place blockno
        (update disk index.toNat ((disk index.toNat).setU32
          ((place - NDIRECT) % IDX_CNT_PER_INDIRECT_BLCOK) blockno)) di

theorem dataBlockAlloc_ensures (geometry : mount.sb.Geometry) :
    Ensures (dataBlockAlloc slot) mount fun b final => ∃ blockno disk di,
      b.blockno = blockno.toNat ∧
      Stored mount (mount.icache slot).di (appendPlace (mount.icache slot).di) blockno disk di ∧
      final.sb = mount.sb ∧ final.disk = disk ∧ (final.icache slot).di = di := by
  simp only [dataBlockAlloc, ensures_bind, ensures_getInode]
  rw [← appendPlace]
  generalize appendPlace (mount.icache slot).di = place
  split
  case isTrue => exact ensures_throw.mpr trivial
  case isFalse =>
    rw [ensures_bind]
    refine Ensures.mono (balloc_ensures geometry) ?_
    rintro blockno _ ⟨disk, held, rfl, allocated⟩
    have sameDi : ∀ di : Dinode, (update mount.icache slot
        { mount.icache slot with di := di } slot).di = di := by
      intro di
      rw [update_self]
    split
    case isTrue isDirect =>
      simp only [ensures_bind, ensures_setIblock, ensures_bread]
      intro _ _ _
      exact ⟨blockno, _, _, rfl, .direct isDirect allocated, trivial, rfl, sameDi _⟩
    case isFalse indirect =>
      split
      case isTrue first =>
        rw [ensures_bind]
        refine Ensures.mono (balloc_ensures geometry) ?_
        rintro index _ ⟨disk', held', rfl, indexed⟩
        simp only [ensures_bind, ensures_setIblock, ensures_bread, ensures_bwrite, ensures_brelse]
        intro inRange _ _ _ _ _ _
        have indexed : Allocated { mount with disk := disk } disk' index :=
          ⟨indexed.isData, indexed.isFree, indexed.lower, indexed.wrote⟩
        exact ⟨blockno, _, _, rfl, .newIndex indirect first inRange allocated indexed, trivial,
          rfl, sameDi _⟩
      case isFalse partly =>
        simp only [ensures_bind, ensures_iblockAt, ensures_bread, ensures_bwrite, ensures_brelse]
        intro inRange _ _ _ _ _ _
        exact ⟨blockno, _, _, rfl, .inIndex indirect partly inRange rfl allocated, trivial, rfl,
          rfl⟩

namespace Allocated

variable {disk : Nat → Block} {blockno : UInt32}

variable (allocated : Allocated mount disk blockno)
include allocated

theorem volume (geometry : mount.sb.Geometry) :
    ({ mount with disk := disk } : Mount Task).volume = mount.volume.setBmap blockno true := by
  have region := allocated.isData
  rw [Superblock.IsData] at region
  have changed := @volume_bmap_write _ mount { mount with disk := disk } rfl
    geometry _ _ (by omega) allocated.wrote
  rwa [Nat.sub_add_cancel region.1, UInt32.ofNat_toNat] at changed

theorem data {other : Nat} (inData : mount.sb.blocks ≤ other) : disk other = mount.disk other := by
  apply allocated.wrote.elsewhere
  have region := allocated.isData
  simp only [Superblock.IsData, BIT_CNT_PER_BLOCK, BSIZE] at region ⊢
  omega

end Allocated

theorem Dinode.blockAt_direct (disk : Nat → Block) (di : Dinode) {k : Nat}
    (direct : k < NDIRECT) : di.blockAt disk k = di.pointer k := if_pos direct

theorem Dinode.blockAt_indirect (disk : Nat → Block) (di : Dinode) {k : Nat}
    (indirect : ¬ k < NDIRECT) : di.blockAt disk k =
      (disk (di.pointer (NDIRECT + (k - NDIRECT) / IDX_CNT_PER_INDIRECT_BLCOK)).toNat).u32
        ((k - NDIRECT) % IDX_CNT_PER_INDIRECT_BLCOK) := if_neg indirect

/-- The first `count` entries of the list and the index blocks they need are blocks in use,
and the index blocks are distinct. -/
structure BlockList (mount : Mount Task) (di : Dinode) (count : Nat) : Prop where
  data : ∀ k < count, mount.volume.bmap (di.blockAt mount.disk k) = true
  index : ∀ j, NDIRECT + j * IDX_CNT_PER_INDIRECT_BLCOK < count →
    mount.volume.bmap (di.pointer (NDIRECT + j)) = true
  distinct : ∀ i j, NDIRECT + i * IDX_CNT_PER_INDIRECT_BLCOK < count →
    NDIRECT + j * IDX_CNT_PER_INDIRECT_BLCOK < count →
    di.pointer (NDIRECT + i) = di.pointer (NDIRECT + j) → i = j

theorem isData_of_bmap {blockno : UInt32} (isMarked : mount.volume.bmap blockno = true) :
    mount.sb.IsData blockno := by
  simp only [Mount.volume, Bool.and_eq_true, decide_eq_true_eq] at isMarked
  exact isMarked.1

namespace Stored

variable {di di' : Dinode} {place : Nat} {blockno : UInt32} {disk : Nat → Block}

section
variable (stored : Stored mount di place blockno disk di')
include stored

theorem allocated : ∃ disk, Allocated mount disk blockno := by
  cases stored with
  | direct _ allocated => exact ⟨_, allocated⟩
  | newIndex _ _ _ allocated _ => exact ⟨_, allocated⟩
  | inIndex _ _ _ _ allocated => exact ⟨_, allocated⟩

theorem place_lt : place < maxBlocks := by
  have far : ∀ {place : Nat}, ¬ place < NDIRECT →
      NDIRECT + (place - NDIRECT) / IDX_CNT_PER_INDIRECT_BLCOK < NDIRECT + NINDIRECT →
      place < maxBlocks := by
    intro place _ inRange
    simp only [maxBlocks, NDIRECT, NINDIRECT, IDX_CNT_PER_INDIRECT_BLCOK, BSIZE] at inRange ⊢
    omega
  cases stored with
  | direct isDirect _ => exact Nat.lt_add_right _ isDirect
  | newIndex indirect _ inRange _ _ => exact far indirect inRange
  | inIndex indirect _ inRange _ _ => exact far indirect inRange

theorem entry : di'.blockAt disk place = blockno := by
  cases stored with
  | direct isDirect _ =>
    rw [blockAt_direct _ _ isDirect, pointer_setPointer _ (Nat.lt_add_right _ isDirect), if_pos rfl]
  | newIndex indirect first inRange _ _ =>
    rw [blockAt_indirect _ _ indirect, pointer_setPointer _ inRange, if_pos rfl,
      update_self, first, Block.u32_setU32 _ _ (by decide), if_pos rfl]
  | inIndex indirect _ _ isIndex _ =>
    rw [blockAt_indirect _ _ indirect, isIndex, update_self,
      Block.u32_setU32 _ _ (Nat.mod_lt _ (by decide)), if_pos rfl]

end

theorem isFree_index {disk' : Nat → Block} {index : UInt32} (geometry : mount.sb.Geometry)
    (allocated : Allocated mount disk' blockno)
    (indexed : Allocated { mount with disk := disk' } disk index) :
    index ≠ blockno ∧ mount.volume.bmap index = false := by
  have isFree := indexed.isFree
  rw [allocated.volume geometry, Volume.setBmap_bmap] at isFree
  have different : index ≠ blockno := by
    rintro rfl
    rw [update_self] at isFree
    cases isFree
  rw [update_of_ne different] at isFree
  exact ⟨different, isFree⟩

variable (stored : Stored mount di place blockno disk di')
include stored

theorem keeps (geometry : mount.sb.Geometry)
    (list : BlockList mount di place) {k : Nat} (before : k < place) :
    di'.blockAt disk k = di.blockAt mount.disk k := by
  by_cases direct : k < NDIRECT
  · rw [blockAt_direct _ _ direct, blockAt_direct _ _ direct]
    cases stored with
    | direct isDirect _ =>
      rw [pointer_setPointer _ (Nat.lt_add_right _ isDirect), if_neg (by omega)]
    | newIndex indirect first inRange _ _ =>
      rw [pointer_setPointer _ inRange, if_neg (Nat.ne_of_lt (Nat.lt_add_right _ direct))]
    | inIndex => rfl
  · have needed : NDIRECT + (k - NDIRECT) / IDX_CNT_PER_INDIRECT_BLCOK *
        IDX_CNT_PER_INDIRECT_BLCOK < place := by
      have := Nat.div_mul_le_self (k - NDIRECT) IDX_CNT_PER_INDIRECT_BLCOK
      omega
    have isMarked := list.index _ needed
    have inData := (isData_of_bmap isMarked).1
    rw [blockAt_indirect _ _ direct, blockAt_indirect _ _ direct]
    cases stored with
    | direct isDirect _ => omega
    | @newIndex _ _ index indirect first inRange allocated indexed =>
      have elsewhere : NDIRECT + (k - NDIRECT) / IDX_CNT_PER_INDIRECT_BLCOK ≠
          NDIRECT + (place - NDIRECT) / IDX_CNT_PER_INDIRECT_BLCOK := by
        simp only [IDX_CNT_PER_INDIRECT_BLCOK, BSIZE] at first ⊢
        omega
      rw [pointer_setPointer _ inRange, if_neg elsewhere]
      have different : (di.pointer (NDIRECT + (k - NDIRECT) /
          IDX_CNT_PER_INDIRECT_BLCOK)).toNat ≠ index.toNat := by
        intro same
        have free := (isFree_index geometry allocated indexed).2
        rw [← UInt32.toNat_inj.mp same, isMarked] at free
        cases free
      rw [update_of_ne different, (indexed.data inData).trans (allocated.data inData)]
    | inIndex indirect partly inRange isIndex allocated =>
      subst isIndex
      by_cases same : (k - NDIRECT) / IDX_CNT_PER_INDIRECT_BLCOK =
          (place - NDIRECT) / IDX_CNT_PER_INDIRECT_BLCOK
      · have otherWord : (k - NDIRECT) % IDX_CNT_PER_INDIRECT_BLCOK ≠
            (place - NDIRECT) % IDX_CNT_PER_INDIRECT_BLCOK := by
          simp only [IDX_CNT_PER_INDIRECT_BLCOK, BSIZE] at same ⊢
          omega
        rw [same] at inData ⊢
        rw [update_self, Block.u32_setU32 _ _ (Nat.mod_lt _ (by decide)),
          if_neg otherWord, allocated.data inData]
      · have alsoNeeded : NDIRECT + (place - NDIRECT) / IDX_CNT_PER_INDIRECT_BLCOK *
            IDX_CNT_PER_INDIRECT_BLCOK < place := by
          simp only [IDX_CNT_PER_INDIRECT_BLCOK, BSIZE] at partly ⊢
          omega
        have different : (di.pointer (NDIRECT + (k - NDIRECT) /
            IDX_CNT_PER_INDIRECT_BLCOK)).toNat ≠ (di.pointer (NDIRECT + (place - NDIRECT) /
            IDX_CNT_PER_INDIRECT_BLCOK)).toNat := fun equal =>
          same (list.distinct _ _ needed alsoNeeded (UInt32.toNat_inj.mp equal))
        rw [update_of_ne different, allocated.data inData]

theorem marked (geometry : mount.sb.Geometry) (list : BlockList mount di place) :
    ({ mount with disk := disk } : Mount Task).volume.bmap blockno = true := by
  have written : ∀ {disk' : Nat → Block} {index : UInt32} {block : Block},
      mount.sb.IsData index →
      ({ mount with disk := disk' } : Mount Task).volume.bmap blockno = true →
      ({ mount with disk := update disk' index.toNat block } : Mount Task).volume.bmap
        blockno = true := by
    intro disk' index block isData isMarked
    have changed := @volume_data_write _ { mount with disk := disk' }
      { mount with disk := update disk' index.toNat block } rfl geometry index block
      isData rfl
    rw [changed]
    exact isMarked
  cases stored with
  | direct isDirect allocated =>
    rw [allocated.volume geometry, Volume.setBmap_bmap, update_self]
  | newIndex indirect first inRange allocated indexed =>
    refine written indexed.isData ?_
    have both := indexed.volume geometry
    rw [allocated.volume geometry] at both
    rw [both, Volume.setBmap_bmap, Volume.setBmap_bmap,
      update_of_ne (isFree_index geometry allocated indexed).1.symm,
      update_self]
  | inIndex indirect partly inRange isIndex allocated =>
    subst isIndex
    refine written (isData_of_bmap (list.index _ ?_)) ?_
    · simp only [IDX_CNT_PER_INDIRECT_BLCOK, BSIZE] at partly ⊢
      omega
    · rw [allocated.volume geometry, Volume.setBmap_bmap, update_self]

end Stored

def HasFree (mount : Mount Task) (count : Nat) : Prop :=
  ∃ free : List UInt32, free.Nodup ∧ free.length = count ∧
    ∀ blockno ∈ free, mount.sb.IsData blockno ∧ mount.volume.bmap blockno = false

def blocksNeeded (place : Nat) : Nat :=
  if NDIRECT ≤ place ∧ (place - NDIRECT) % IDX_CNT_PER_INDIRECT_BLCOK = 0 then 2 else 1

theorem HasFree.exists_free {count : Nat} (free : HasFree mount count) (positive : 0 < count) :
    ∃ blockno, mount.sb.IsData blockno ∧ mount.volume.bmap blockno = false := by
  rcases free with ⟨blocks, _, length, areFree⟩
  cases blocks with
  | nil =>
    rw [List.length_nil] at length
    omega
  | cons blockno rest => exact ⟨blockno, areFree blockno List.mem_cons_self⟩

theorem HasFree.one (free : HasFree mount 2) : HasFree mount 1 := by
  rcases free.exists_free (by decide) with ⟨blockno, isFree⟩
  refine ⟨[blockno], List.nodup_singleton blockno, rfl, ?_⟩
  rintro other isMember
  rw [List.mem_singleton.mp isMember]
  exact isFree

theorem HasFree.exists_free_after (free : HasFree mount 2) (geometry : mount.sb.Geometry)
    {disk : Nat → Block} {blockno : UInt32} (allocated : Allocated mount disk blockno) :
    ∃ other, mount.sb.IsData other ∧
      ({ mount with disk := disk } : Mount Task).volume.bmap other = false := by
  rcases free with ⟨blocks, distinct, length, areFree⟩
  rcases List.length_eq_two.mp length with ⟨first, second, rfl⟩
  have different : first ≠ second := by
    rintro rfl
    simp at distinct
  have remains : ∀ other ∈ [first, second], other ≠ blockno →
      ∃ other, mount.sb.IsData other ∧
        ({ mount with disk := disk } : Mount Task).volume.bmap other = false := by
    intro other isFree notTaken
    refine ⟨other, (areFree other isFree).1, ?_⟩
    rw [allocated.volume geometry, Volume.setBmap_bmap, update_of_ne notTaken]
    exact (areFree other isFree).2
  by_cases taken : first = blockno
  · exact remains second (by simp) fun same => different (taken.trans same.symm)
  · exact remains first (by simp) taken

theorem dataBlockAlloc_yields (geometry : mount.sb.Geometry) (idle : mount.held = [])
    (inRange : appendPlace (mount.icache slot).di < maxBlocks)
    (notLimit : appendPlace (mount.icache slot).di ≠ FILE_MAX_DATA_BLOCKNUM)
    (free : HasFree mount (blocksNeeded (appendPlace (mount.icache slot).di))) :
    Yields (dataBlockAlloc slot) mount fun b final => ∃ (blockno : UInt32) (disk : Nat → Block)
      (di : Dinode), b = ⟨blockno.toNat, disk blockno.toNat⟩ ∧
      Stored mount (mount.icache slot).di (appendPlace (mount.icache slot).di) blockno disk di ∧
      final = { mount.withDi slot di with disk := disk, held := [blockno.toNat] } := by
  simp only [dataBlockAlloc, yields_bind, yields_getInode]
  rw [← appendPlace]
  generalize appendPlace (mount.icache slot).di = place at inRange notLimit free ⊢
  have unlocked : Unlocked mount.held mount.sb.bmap mount.sb.blocks := by
    rw [idle]
    exact unlocked_nil _ _
  rw [if_neg notLimit, yields_bind]
  have isFree := free.exists_free (by rw [blocksNeeded]; split <;> decide)
  refine (balloc_yields geometry unlocked isFree).mono ?_
  rintro blockno _ ⟨disk, rfl, allocated⟩
  have position : ¬ place < NDIRECT →
      NDIRECT + (place - NDIRECT) / IDX_CNT_PER_INDIRECT_BLCOK < NDIRECT + NINDIRECT := by
    intro indirect
    simp only [maxBlocks, NDIRECT, NINDIRECT, IDX_CNT_PER_INDIRECT_BLCOK, BSIZE]
      at inRange indirect ⊢
    omega
  split
  case isTrue isDirect =>
    simp only [yields_bind, yields_setIblock, yields_bread, idle]
    exact ⟨Nat.lt_add_right _ isDirect, List.not_mem_nil, by decide, blockno, disk, _, rfl,
      .direct isDirect allocated, rfl⟩
  case isFalse indirect =>
    split
    case isTrue first =>
      rw [blocksNeeded, if_pos ⟨Nat.not_lt.mp indirect, first⟩] at free
      rw [yields_bind]
      refine (@balloc_yields _ { mount with disk := disk } geometry unlocked
        (free.exists_free_after geometry allocated)).mono ?_
      rintro index _ ⟨disk', rfl, indexed⟩
      simp only [yields_bind, yields_setIblock, yields_bread, yields_bwrite, idle]
      refine ⟨position indirect, List.not_mem_nil, by decide, List.mem_cons_self,
        yields_brelse_head rfl ?_⟩
      exact ⟨List.not_mem_nil, show 0 < NIOBUF by decide, blockno, _, _, rfl,
        .newIndex indirect first (position indirect) allocated indexed, rfl⟩
    case isFalse partly =>
      simp only [yields_bind, yields_iblockAt, yields_bread, yields_bwrite, idle]
      refine ⟨position indirect, List.not_mem_nil, by decide, List.mem_cons_self,
        yields_brelse_head rfl ?_⟩
      refine ⟨List.not_mem_nil, show 0 < NIOBUF by decide, blockno, _, _, rfl,
        .inIndex indirect partly (position indirect) rfl allocated, ?_⟩
      rw [Mount.withDi_self]

/-- The call appends a free block to a list of `count` entries, and `data_block_get` finds
it there. -/
def Appends (mount : Mount Task) (slot : Fin NINODE) (count : Nat) : Prop :=
  Yields (dataBlockAlloc slot) mount fun b final => ∃ blockno : UInt32,
    b.blockno = blockno.toNat ∧ mount.volume.bmap blockno = false ∧
    final.volume.bmap blockno = true ∧
    (∀ k < count, final.blockAt slot k = mount.blockAt slot k) ∧
    final.blockAt slot count = blockno ∧
    Yields (do brelse b; dataBlockGet slot count) final fun found _ => found.blockno = b.blockno

def AppendPanics (mount : Mount Task) (slot : Fin NINODE) : Prop :=
  ∃ message, dataBlockAlloc slot mount = .error (.panic message)

/-- A cached inode with a list of as many blocks as its size says, on a disk with room for
one more entry. -/
structure Appendable (mount : Mount Task) (slot : Fin NINODE) (count : Nat) : Prop where
  geometry : mount.sb.Geometry
  idle : mount.held = []
  size : count = ((mount.icache slot).di.fsize.toNat + BSIZE - 1) / BSIZE
  bounded : count ≤ maxBlocks
  list : BlockList mount (mount.icache slot).di count
  free : HasFree mount (blocksNeeded count)

namespace Appendable

variable {count : Nat}

variable (setting : Appendable mount slot count)
include setting

theorem place_of_whole (whole : (mount.icache slot).di.fsize.toNat % BSIZE = 0) :
    appendPlace (mount.icache slot).di = count := by
  have bound := (mount.icache slot).di.fsize.toNat_lt
  rw [appendPlace, iblockCnt_of_mod whole, setting.size]
  simp only [BSIZE] at whole ⊢
  omega

section
variable (partly : (mount.icache slot).di.fsize.toNat % BSIZE ≠ 0)
include partly

theorem place_of_partly : count = appendPlace (mount.icache slot).di + 2 ∨
      (count = 1 ∧ maxBlocks ≤ appendPlace (mount.icache slot).di) := by
  have bound := (mount.icache slot).di.fsize.toNat_lt
  rw [appendPlace, iblockCnt, if_neg partly, setting.size]
  simp only [maxBlocks, NDIRECT, NINDIRECT, IDX_CNT_PER_INDIRECT_BLCOK, BSIZE] at partly ⊢
  omega

theorem not_appends : ¬ Appends mount slot count := by
  intro appends
  rcases appends with ⟨b, final, ran, blockno, number, _, _, keeps, _⟩
  rcases dataBlockAlloc_ensures setting.geometry b final ran with
    ⟨stored, disk, di, sameNumber, stores, _, rfl, rfl⟩
  have place := stores.place_lt
  rcases setting.place_of_partly partly with isPlace | ⟨_, outside⟩
  · -- The entry at the place was in use, and is the new block now.
    have entry := keeps _ (show appendPlace (mount.icache slot).di < count by omega)
    have inUse := setting.list.data _ (show appendPlace (mount.icache slot).di < count by omega)
    rw [Mount.blockAt, Mount.blockAt, stores.entry] at entry
    rcases stores.allocated with ⟨_, allocated⟩
    rw [← entry, allocated.isFree] at inUse
    cases inUse
  · omega

end

theorem appends (whole : (mount.icache slot).di.fsize.toNat % BSIZE = 0) (below : count < maxBlocks)
    (notLimit : count ≠ FILE_MAX_DATA_BLOCKNUM) : Appends mount slot count := by
  have place := setting.place_of_whole whole
  refine (@dataBlockAlloc_yields _ _ slot setting.geometry setting.idle
    (by rwa [place]) (by rwa [place]) (by rw [place]; exact setting.free)).mono ?_
  rintro _ _ ⟨blockno, disk, di, rfl, stored, rfl⟩
  rw [place] at stored
  rcases stored.allocated with ⟨_, allocated⟩
  have sameDi := mount.withDi_di slot di
  have entry : Mount.blockAt { mount.withDi slot di with disk := disk, held := [blockno.toNat] }
      slot count = blockno := by
    rw [Mount.blockAt, sameDi, stored.entry]
  refine ⟨blockno, rfl, allocated.isFree, stored.marked setting.geometry setting.list, ?_, entry, ?_⟩
  · intro k before
    rw [Mount.blockAt, sameDi]
    exact stored.keeps setting.geometry setting.list before
  · rw [yields_bind]
    refine yields_brelse_head rfl ?_
    refine (dataBlockGet_yields rfl below).mono ?_
    rintro _ _ ⟨rfl, _⟩
    exact congrArg UInt32.toNat entry

end Appendable

theorem dataBlockAlloc_limit (limit : appendPlace (mount.icache slot).di = FILE_MAX_DATA_BLOCKNUM) :
    dataBlockAlloc slot mount = .error (.panic "data_block_alloc: file too big") := by
  have start : getInode slot mount = .ok (mount.icache slot, mount) := rfl
  rw [dataBlockAlloc, bind_eq, start]
  simp only
  rw [← appendPlace, if_pos limit]
  rfl

theorem dataBlockAlloc_full (geometry : mount.sb.Geometry) (idle : mount.held = [])
    (full : appendPlace (mount.icache slot).di = maxBlocks) (free : HasFree mount 2) :
    dataBlockAlloc slot mount = .error .bounds := by
  have unlocked : Unlocked mount.held mount.sb.bmap mount.sb.blocks := by
    rw [idle]
    exact unlocked_nil _ _
  rcases balloc_yields geometry unlocked (free.exists_free (by decide)) with
    ⟨blockno, _, ran, disk, rfl, allocated⟩
  rcases @balloc_yields _ { mount with disk := disk } geometry unlocked
      (free.exists_free_after geometry allocated) with ⟨index, _, ranIndex, disk', rfl, _⟩
  have start : getInode slot mount = .ok (mount.icache slot, mount) := rfl
  have outside : ∀ (state : Mount Task) (index : UInt32),
      setIblock slot (NDIRECT + (maxBlocks - NDIRECT) / IDX_CNT_PER_INDIRECT_BLCOK) index state =
        .error .bounds := fun _ _ => rfl
  rw [dataBlockAlloc, bind_eq, start]
  simp only
  rw [← appendPlace, full, if_neg (by decide), bind_eq, ran]
  simp only
  rw [if_neg (by decide), if_pos (by decide), bind_eq, ranIndex]
  simp only
  rw [bind_eq, outside]

/-- The call appends, and panics only at the largest size, exactly for a file of full
blocks that has neither `FILE_MAX_DATA_BLOCKNUM` blocks nor the most possible. -/
theorem dataBlockAlloc_appends_iff (mount : Mount Task) (slot : Fin NINODE) (count : Nat)
    (setting : Appendable mount slot count) :
    ((count < maxBlocks → Appends mount slot count) ∧
        (AppendPanics mount slot ↔ count = maxBlocks)) ↔
      (mount.icache slot).di.fsize.toNat % BSIZE = 0 ∧ count ≠ FILE_MAX_DATA_BLOCKNUM ∧
        count ≠ maxBlocks := by
  have bounded := setting.bounded
  constructor
  · rintro ⟨appends, panics⟩
    have whole : (mount.icache slot).di.fsize.toNat % BSIZE = 0 := by
      by_contra partly
      by_cases below : count < maxBlocks
      · exact setting.not_appends partly (appends below)
      · have isFull : count = maxBlocks := by omega
        subst isFull
        have place : appendPlace (mount.icache slot).di = maxBlocks - 2 := by
          rcases setting.place_of_partly partly with isPlace | ⟨single, _⟩
          · omega
          · cases single
        have free : HasFree mount (blocksNeeded (appendPlace (mount.icache slot).di)) := by
          rw [place]
          exact setting.free.one
        rcases @dataBlockAlloc_yields _ _ slot setting.geometry setting.idle
            (by rw [place]; decide) (by rw [place]; decide) free with ⟨b, final, ran, _⟩
        rcases panics.mpr rfl with ⟨message, panicked⟩
        rw [ran] at panicked
        cases panicked
    have place := setting.place_of_whole whole
    refine ⟨whole, ?_, ?_⟩
    · rintro rfl
      rcases appends (by decide) with ⟨b, final, ran, _⟩
      rw [dataBlockAlloc_limit place] at ran
      cases ran
    · rintro rfl
      rcases panics.mpr rfl with ⟨message, panicked⟩
      rw [dataBlockAlloc_full setting.geometry setting.idle place setting.free] at panicked
      cases panicked
  · rintro ⟨whole, notLimit, notFull⟩
    have below : count < maxBlocks := by omega
    have appends := setting.appends whole below notLimit
    refine ⟨fun _ => appends, ?_⟩
    constructor
    · rintro ⟨message, panicked⟩
      rcases appends with ⟨b, final, ran, _⟩
      rw [ran] at panicked
      cases panicked
    · exact fun isFull => absurd isFull notFull

def smallFile (fsize : UInt32) (count : Nat) : Mount Unit :=
  { thirteenBlocks with
    disk := fun blockno => if blockno = 700 then BitVec.ofNat 8192 (2 ^ count - 1) else 0
    icache := fun _ => ⟨⟨.REGULAR, 0, 1, fsize, fun i =>
      if i.val < count then UInt32.ofNat (701 + i.val) else 0⟩, some (), 1, 1⟩ }

theorem geometry_thirteenBlocks : thirteenBlocks.sb.Geometry :=
  ⟨by decide, by decide, by decide, by decide, by decide, by decide, by decide⟩

theorem appendable_smallFile (fsize : UInt32) (count : Nat) (few : count ≤ 2)
    (size : count = (fsize.toNat + BSIZE - 1) / BSIZE) :
    Appendable (smallFile fsize count) 0 count where
  geometry := geometry_thirteenBlocks
  idle := rfl
  size := size
  bounded := few.trans (by decide)
  list := by
    have noIndex : ∀ j, ¬ NDIRECT + j * IDX_CNT_PER_INDIRECT_BLCOK < count := by
      intro j
      simp only [NDIRECT]
      omega
    refine ⟨?_, fun j needed => absurd needed (noIndex j),
      fun i _ needed => absurd needed (noIndex i)⟩
    have inUse : ∀ count ≤ 2, ∀ k < count, (smallFile 0 count).volume.bmap
        ((smallFile 0 count).blockAt 0 k) = true := by
      decide +kernel
    exact inUse count few
  free := by
    have oneBlock : blocksNeeded count = 1 := by
      rw [blocksNeeded, if_neg]
      simp only [NDIRECT]
      omega
    have isFree : ∀ count ≤ 2, (smallFile 0 count).sb.IsData 703 ∧
        (smallFile 0 count).volume.bmap 703 = false := by
      decide +kernel
    rw [oneBlock]
    refine ⟨[703], List.nodup_singleton _, rfl, ?_⟩
    rintro blockno isMember
    rw [List.mem_singleton.mp isMember]
    exact isFree count few

/-- A third block is appended to two full ones. -/
theorem appends_twoBlocks : Appends (smallFile 2048 2) 0 2 ∧ ¬ AppendPanics (smallFile 2048 2) 0 := by
  have holds := (dataBlockAlloc_appends_iff (smallFile 2048 2) 0 2
    (appendable_smallFile 2048 2 (by decide) rfl)).mpr ⟨rfl, by decide, by decide⟩
  exact ⟨holds.1 (by decide), fun panics => absurd (holds.2.mp panics) (by decide)⟩

/-- A file of 1025 bytes loses its first block to the new one. -/
theorem dataBlockAlloc_overwrites : Appendable (smallFile 1025 2) 0 2 ∧
    (smallFile 1025 2).blockAt 0 0 = 701 ∧
    (dataBlockAlloc 0 (smallFile 1025 2)).map (fun outcome => outcome.2.blockAt 0 0) = .ok 703 :=
  ⟨appendable_smallFile 1025 2 (by decide) rfl, by decide +kernel, by decide +kernel⟩

end Tnix.Fs
