import Tnix.Fs.Directory

/-! # Adding an entry

`dentry_add` stores an entry in the first slot that is not in use, or appends a block to the
directory. -/

namespace Tnix.Fs

open Function Program Block Dinode

namespace Block

variable {old new data : Block} {j : Nat} {inum : UInt32} {name : List UInt8}

theorem Entered.entry_at (entered : Entered old new j inum name) (valid : Valid name) :
    new.entry j = some (name, inum) := by
  rw [entry_of_live (entered.live_at valid), entered.name_at valid.2.1 valid.2.2, entered.inum]

theorem Entered.entry_other (entered : Entered old new j inum name) {i : Nat} (slot : Slot i)
    (different : i ≠ j) : new.entry i = old.entry i := by
  rw [entry, entry, entered.live_other slot different, entered.name_other slot different,
    entered.inum_same i slot different]

theorem entry_eq_none_iff : data.entry j = none ↔ data.live j = false := by
  rw [entry]
  cases data.live j <;> simp

def addEntry (data : Block) (j : Nat) (inum : UInt32) (name : List UInt8) : Block :=
  (setEntry data j inum name).setU64 0 ((setEntry data j inum name).cnt + 1)

theorem freeEntry_first (found : freeEntry data = some j) {i : Nat} (slot : Slot i)
    (dead : data.live i = false) : j ≤ i := by
  rw [freeEntry, List.find?_range'_eq_some] at found
  by_contra before
  have isLive := found.2.2 i slot.1 (Nat.not_le.mp before)
  simp [dead] at isLive

theorem freeEntry_of_full (counted : data.Counted)
    (full : data.cnt = BitVec.ofNat 64 dentryMax) : freeEntry data = none := by
  rw [Counted, full] at counted
  have all : (List.range' 1 dentryMax).countP data.live = (List.range' 1 dentryMax).length := by
    rw [← counted, List.length_range']
    rfl
  rw [List.countP_eq_length] at all
  refine List.find?_eq_none.mpr fun i member => ?_
  simp [all i member]

theorem counted_zero : (0 : Block).Counted := by
  decide +kernel

theorem live_zero (j : Nat) : (0 : Block).live j = false := by
  have zero : (0 : Block).dentryName j 0 = 0 := u8_zero _
  rw [live, zero]
  rfl

end Block

variable {Task : Type} {mount : Mount Task} {slot : Fin NINODE} {n : Nat} {inum : UInt32}
  {name : List UInt8}

/-! ## A slot that is free -/

/-- What trying the blocks from `i` on does: the first free slot is filled. -/
inductive AddsFrom (mount : Mount Task) (slot : Fin NINODE) (n : Nat) (inum : UInt32)
    (name : List UInt8) (i : Nat) : Bool → Mount Task → Prop
  | full (later : ∀ k, i ≤ k → k < n → freeEntry (mount.content slot k) = none) :
      AddsFrom mount slot n inum name i false mount
  | filled {k j : Nat} (inside : k < n) (free : freeEntry (mount.content slot k) = some j)
      (earlier : ∀ m, i ≤ m → m < k → freeEntry (mount.content slot m) = none) :
      AddsFrom mount slot n inum name i true
        (mount.withContent slot k ((mount.content slot k).addEntry j inum name))

theorem DirFormed.addInFrom_yields (formed : DirFormed mount slot n) (idle : mount.held = [])
    (remaining : Nat) : ∀ i, i + remaining = n →
    Yields (addInFrom slot inum name remaining i) mount (AddsFrom mount slot n inum name i) := by
  induction remaining with
  | zero =>
    intro i total
    rw [addInFrom, yields_pure]
    exact .full fun k _ _ => by omega
  | succ remaining induction =>
    intro i total
    have inDir : i < n := by omega
    have next : freeEntry (mount.content slot i) = none →
        Yields (do
          brelse ⟨(mount.listAt slot i).toNat, mount.content slot i⟩
          addInFrom slot inum name remaining (i + 1))
          { mount with held := [(mount.listAt slot i).toNat] }
          (AddsFrom mount slot n inum name i) := by
      intro none
      rw [yields_bind]
      refine yields_brelse_head rfl ?_
      rw [← idle]
      refine (induction (i + 1) (by omega)).mono ?_
      rintro _ _ (later | ⟨inside, free, earlier⟩)
      · refine .full fun k atLeast inside => ?_
        by_cases here : k = i
        · rw [here, none]
        · exact later k (by omega) inside
      · refine .filled inside free fun m atLeast before => ?_
        by_cases here : m = i
        · rw [here, none]
        · exact earlier m (by omega) before
    rw [addInFrom, yields_bind, yields_iff_of_ok (formed.list.dataBlockGet_eq idle inDir)]
    simp only
    split
    case isTrue full => exact next (freeEntry_of_full (formed.counted i inDir) full)
    case isFalse =>
      cases free : freeEntry (mount.content slot i) with
      | none => exact next free
      | some j =>
        simp only
        rw [← Block.addEntry, yields_bind, yields_bwrite]
        refine ⟨List.mem_cons_self, ?_⟩
        rw [yields_bind]
        refine yields_brelse_head rfl ?_
        rw [yields_pure, ← idle]
        exact .filled inDir free fun m _ _ => by omega

/-! ## A new block -/

def NeedsIndex (n : Nat) : Prop :=
  NDIRECT ≤ n ∧ (n - NDIRECT) % IDX_CNT_PER_INDIRECT_BLCOK = 0

def indexOf (n : Nat) : Nat := NDIRECT + (n - NDIRECT) / IDX_CNT_PER_INDIRECT_BLCOK

theorem le_indexOf (n : Nat) : NDIRECT ≤ indexOf n := Nat.le_add_right _ _

theorem Dinode.treeAt_direct (disk : Nat → Block) (di : Dinode) {k : Nat} (direct : k < NDIRECT) :
    di.treeAt disk (.data k) = di.pointer k := by
  rw [treeAt, if_neg (fun both => Nat.not_le.mpr direct both.1), blockAt_direct disk di direct]

theorem Dinode.treeAt_indirect (disk : Nat → Block) (di : Dinode) {k : Nat}
    (indirect : ¬ k < NDIRECT) : di.treeAt disk (.data k) = if di.pointer (indexOf k) = 0 then 0
      else (disk (di.pointer (indexOf k)).toNat).u32
        ((k - NDIRECT) % IDX_CNT_PER_INDIRECT_BLCOK) := by
  rw [treeAt, blockAt_indirect disk di indirect, indexOf]
  simp only [Nat.not_lt.mp indirect, true_and]

/-- What appending a block at the place `n` does to the dinode and to the disk. -/
structure BlockAppended (mount : Mount Task) (di : Dinode) (n : Nat) (blockno : UInt32)
    (disk : Nat → Block) (di' : Dinode) : Prop where
  isData : mount.sb.IsData blockno
  isFree : marked mount.sb mount.disk blockno = false
  size : di'.fsize = di.fsize
  newIndex : NeedsIndex n → mount.sb.IsData (di'.pointer (indexOf n)) ∧
    marked mount.sb mount.disk (di'.pointer (indexOf n)) = false ∧
    di'.pointer (indexOf n) ≠ blockno
  pointers : ∀ j, ¬ (NeedsIndex n ∧ NDIRECT + j = indexOf n) →
    di'.pointer (NDIRECT + j) = di.pointer (NDIRECT + j)
  marks : ∀ other, mount.sb.IsData other → (marked mount.sb disk other = true ↔
    marked mount.sb mount.disk other = true ∨ other = blockno ∨
      (NeedsIndex n ∧ other = di'.pointer (indexOf n)))
  list : ∀ k, di'.treeAt disk (.data k) =
    if k = n then blockno else di.treeAt mount.disk (.data k)
  contents : ∀ other, mount.sb.blocks ≤ other →
    (∀ j, other ≠ (di'.pointer (NDIRECT + j)).toNat) → disk other = mount.disk other

variable {disk : Nat → Block} {blockno : UInt32}

theorem Allocated.marked (allocated : Allocated mount disk blockno) {other : UInt32}
    (isData : mount.sb.IsData other) :
    marked mount.sb disk other = true ↔
      Fs.marked mount.sb mount.disk other = true ∨ other = blockno := by
  have region := allocated.isData.1
  have otherRegion := isData.1
  rw [Fs.marked, allocated.wrote.bit, ← Fs.marked]
  by_cases same : other = blockno
  · subst same
    simp
  · have different : other.toNat - mount.sb.blocks ≠ blockno.toNat - mount.sb.blocks := by
      intro equal
      exact same (UInt32.toNat_inj.mp (by omega))
    simp [different, same]

theorem Allocated.wasFree (allocated : Allocated mount disk blockno) :
    Fs.marked mount.sb mount.disk blockno = false :=
  (bmap_eq_mapBit allocated.isData).symm.trans allocated.isFree

theorem marked_update {sb : Superblock} {address : Nat} {block : Block}
    (inData : sb.blocks ≤ address) {other : UInt32} (isData : sb.IsData other) :
    marked sb (update disk address block) other = marked sb disk other := by
  have mark := isData.mark_lt
  rw [marked, mapBit, update_of_ne (by omega), marked, mapBit]

theorem Mount.treeAt_same {di : Dinode} {k : Nat}
    (samePointer : di.pointer (if k < NDIRECT then k else indexOf k) =
      (mount.icache slot).di.pointer (if k < NDIRECT then k else indexOf k))
    (sameWord : ¬ k < NDIRECT → (mount.icache slot).di.pointer (indexOf k) ≠ 0 →
      (disk ((mount.icache slot).di.pointer (indexOf k)).toNat).u32 ((k - NDIRECT) %
      IDX_CNT_PER_INDIRECT_BLCOK) = (mount.disk ((mount.icache slot).di.pointer (indexOf
      k)).toNat).u32 ((k - NDIRECT) % IDX_CNT_PER_INDIRECT_BLCOK)) :
    di.treeAt disk (.data k) = (mount.icache slot).di.treeAt mount.disk (.data k) := by
  by_cases direct : k < NDIRECT
  · rw [if_pos direct] at samePointer
    rw [treeAt_direct _ _ direct, treeAt_direct _ _ direct, samePointer]
  · rw [if_neg direct] at samePointer
    rw [treeAt_indirect _ _ direct, treeAt_indirect _ _ direct, samePointer]
    split
    case isTrue => rfl
    case isFalse nonzero => exact sameWord direct nonzero

namespace DirFormed

variable (formed : DirFormed mount slot n) {i : Nat} (indirect : NDIRECT ≤ i)
  (nonzero : (mount.icache slot).di.pointer i ≠ 0)
include formed

section
include indirect nonzero

theorem index_inUse : mount.sb.IsData ((mount.icache slot).di.pointer i) ∧
    marked mount.sb mount.disk ((mount.icache slot).di.pointer i) = true := by
  rcases Nat.exists_eq_add_of_le indirect with ⟨j, rfl⟩
  exact formed.indexInUse j ((formed.list.index j).mp nonzero)

theorem index_ne_of_free {blockno : UInt32} (isFree : marked mount.sb mount.disk blockno = false) :
    ((mount.icache slot).di.pointer i).toNat ≠ blockno.toNat := by
  intro same
  rw [← UInt32.toNat_inj.mp same, (formed.index_inUse indirect nonzero).2] at isFree
  cases isFree

end

section
variable {blockno : UInt32} {disk : Nat → Block} (allocated : Allocated mount disk blockno)
include allocated

theorem appended_direct (isDirect : n < NDIRECT) :
    BlockAppended mount (mount.icache slot).di n blockno disk
      ((mount.icache slot).di.setPointer n blockno) := by
  have notNeeded : ¬ NeedsIndex n := fun needs => Nat.not_le.mpr isDirect needs.1
  have inRange : n < NDIRECT + NINDIRECT := Nat.lt_add_right _ isDirect
  have pointer := fun i => (mount.icache slot).di.pointer_setPointer inRange blockno i
  refine ⟨allocated.isData, allocated.wasFree, ?_, fun needs => absurd needs notNeeded, ?_, ?_,
    ?_, ?_⟩
  · rw [Dinode.setPointer, dif_pos inRange]
  · intro j _
    rw [pointer, if_neg (by omega)]
  · intro other isData
    rw [allocated.marked isData]
    simp [notNeeded]
  · intro k
    by_cases here : k = n
    · subst here
      rw [treeAt_direct _ _ isDirect, pointer, if_pos rfl, if_pos rfl]
    · rw [if_neg here]
      refine Mount.treeAt_same ?_ fun _ nonzero => ?_
      · rw [pointer, if_neg]
        have index := le_indexOf k
        split
        case isTrue => exact here
        case isFalse => omega
      · rw [allocated.data (formed.index_inUse (le_indexOf k) nonzero).1.1]
  · exact fun other inData _ => allocated.data inData

theorem appended_newIndex {disk' : Nat → Block} {index : UInt32} (geometry : mount.sb.Geometry)
    (needs : NeedsIndex n) (inRange : indexOf n < NDIRECT + NINDIRECT)
    (indexed : Allocated { mount with disk := disk } disk' index) :
    BlockAppended mount (mount.icache slot).di n blockno
      (update disk' index.toNat ((disk' index.toNat).setU32 0 blockno))
      ((mount.icache slot).di.setPointer (indexOf n) index) := by
  have pointer := fun i => (mount.icache slot).di.pointer_setPointer inRange index i
  rcases Stored.isFree_index geometry allocated indexed with ⟨different, free⟩
  have isFree : marked mount.sb mount.disk index = false :=
    (@bmap_eq_mapBit _ mount _ indexed.isData).symm.trans free
  have same : ∀ other, mount.sb.blocks ≤ other → disk' other = mount.disk other :=
    fun other inData => (indexed.data inData).trans (allocated.data inData)
  have isClear : disk' index.toNat = 0 :=
    (same _ indexed.isData.1).trans (formed.clear index indexed.isData isFree)
  have nonzero : index ≠ 0 := geometry.ne_zero indexed.isData
  refine ⟨allocated.isData, allocated.wasFree, ?_, fun _ => ?_, ?_, ?_, ?_, ?_⟩
  · rw [Dinode.setPointer, dif_pos inRange]
  · rw [pointer, if_pos rfl]
    exact ⟨indexed.isData, isFree, different⟩
  · intro j other
    rw [pointer, if_neg fun here => other ⟨needs, here⟩]
  · intro other isData
    rw [marked_update indexed.isData.1 isData, indexed.marked isData, allocated.marked isData,
      pointer, if_pos rfl, or_assoc]
    simp [needs]
  · intro k
    by_cases direct : k < NDIRECT
    · have before := needs.1
      rw [if_neg (by omega), treeAt_direct _ _ direct, treeAt_direct _ _ direct,
        pointer, if_neg (by have := le_indexOf n; omega)]
    · by_cases inBlock : indexOf k = indexOf n
      · have place : (k - NDIRECT) % IDX_CNT_PER_INDIRECT_BLCOK = 0 ↔ k = n := by
          rcases needs with ⟨indirect, first⟩
          simp only [indexOf, NDIRECT, IDX_CNT_PER_INDIRECT_BLCOK, BSIZE]
            at inBlock first indirect direct ⊢
          omega
        rw [treeAt_indirect _ _ direct, pointer, if_pos inBlock, if_neg nonzero,
          update_self, u32_setU32 _ _ (by decide), isClear]
        simp only [place]
        split
        case isTrue => rfl
        case isFalse later =>
          have after : n ≤ k := by
            rcases needs with ⟨indirect, first⟩
            simp only [indexOf, NDIRECT, IDX_CNT_PER_INDIRECT_BLCOK, BSIZE]
              at inBlock first indirect direct
            omega
          exact (u32_zero _).trans (formed.tail k after).symm
      · rw [if_neg (fun here => inBlock (congrArg indexOf here))]
        refine Mount.treeAt_same ?_ fun _ present => ?_
        · rw [if_neg direct, pointer, if_neg inBlock]
        · rw [update_of_ne (formed.index_ne_of_free (le_indexOf k) present isFree),
            same _ (formed.index_inUse (le_indexOf k) present).1.1]
  · intro other inData noIndex
    have notNew : other ≠ index.toNat := by
      have different := noIndex ((n - NDIRECT) / IDX_CNT_PER_INDIRECT_BLCOK)
      rwa [← indexOf, pointer, if_pos rfl] at different
    rw [update_of_ne notNew, same other inData]

theorem appended_inIndex (indirect : NDIRECT ≤ n) (notNeeded : ¬ NeedsIndex n) :
    BlockAppended mount (mount.icache slot).di n blockno
      (update disk ((mount.icache slot).di.pointer (indexOf n)).toNat
        ((disk ((mount.icache slot).di.pointer (indexOf n)).toNat).setU32
          ((n - NDIRECT) % IDX_CNT_PER_INDIRECT_BLCOK) blockno)) (mount.icache slot).di := by
  have partly : (n - NDIRECT) % IDX_CNT_PER_INDIRECT_BLCOK ≠ 0 :=
    fun first => notNeeded ⟨indirect, first⟩
  have needed : NDIRECT + (n - NDIRECT) / IDX_CNT_PER_INDIRECT_BLCOK *
      IDX_CNT_PER_INDIRECT_BLCOK < n := by
    simp only [NDIRECT, IDX_CNT_PER_INDIRECT_BLCOK, BSIZE] at partly indirect ⊢
    omega
  have nonzero : (mount.icache slot).di.pointer (indexOf n) ≠ 0 := (formed.list.index _).mpr needed
  have inData := (formed.index_inUse (le_indexOf n) nonzero).1.1
  refine ⟨allocated.isData, allocated.wasFree, rfl, fun needs => absurd needs notNeeded,
    fun _ _ => rfl, ?_, ?_, ?_⟩
  · intro other isData
    rw [marked_update inData isData, allocated.marked isData]
    simp [notNeeded]
  · intro k
    by_cases direct : k < NDIRECT
    · rw [if_neg (by omega), treeAt_direct _ _ direct, treeAt_direct _ _ direct]
    · by_cases inBlock : indexOf k = indexOf n
      · have place : (k - NDIRECT) % IDX_CNT_PER_INDIRECT_BLCOK =
            (n - NDIRECT) % IDX_CNT_PER_INDIRECT_BLCOK ↔ k = n := by
          simp only [indexOf, NDIRECT, IDX_CNT_PER_INDIRECT_BLCOK, BSIZE]
            at inBlock direct indirect ⊢
          omega
        rw [treeAt_indirect _ _ direct, treeAt_indirect _ _ direct, inBlock,
          if_neg nonzero, if_neg nonzero, update_self,
          u32_setU32 _ _ (Nat.mod_lt _ (by decide)), allocated.data inData]
        simp only [place]
      · rw [if_neg (fun here => inBlock (congrArg indexOf here))]
        refine Mount.treeAt_same rfl fun _ present => ?_
        have different : ((mount.icache slot).di.pointer (indexOf k)).toNat ≠
            ((mount.icache slot).di.pointer (indexOf n)).toNat := by
          intro same
          have sameBlock := formed.list.indexDistinct _ _ (UInt32.toNat_inj.mp same) present
          exact inBlock (congrArg (NDIRECT + ·) sameBlock)
        rw [update_of_ne different, allocated.data (formed.index_inUse (le_indexOf k) present).1.1]
  · intro other otherData noIndex
    have notIndex : other ≠ ((mount.icache slot).di.pointer (indexOf n)).toNat := noIndex _
    rw [update_of_ne notIndex, allocated.data otherData]

end

theorem blockAppended {blockno : UInt32} {disk : Nat → Block} {di : Dinode}
    (geometry : mount.sb.Geometry)
    (stored : Stored mount (mount.icache slot).di n blockno disk di) :
    BlockAppended mount (mount.icache slot).di n blockno disk di := by
  cases stored with
  | direct isDirect allocated => exact formed.appended_direct allocated isDirect
  | newIndex indirect first inRange allocated indexed =>
    exact formed.appended_newIndex allocated geometry ⟨Nat.not_lt.mp indirect, first⟩ inRange
      indexed
  | inIndex indirect partly inRange isIndex allocated =>
    subst isIndex
    exact formed.appended_inIndex allocated (Nat.not_lt.mp indirect) fun needs => partly needs.2

end DirFormed

/-! ## The directory with one block more -/

structure GrownTo (mount final : Mount Task) (slot : Fin NINODE) (blockno : UInt32)
    (disk : Nat → Block) (di : Dinode) : Prop where
  sb : final.sb = mount.sb
  pointers : ∀ i, (final.icache slot).di.pointer i = di.pointer i
  size : (final.icache slot).di.fsize = di.fsize + UInt32.ofNat BSIZE
  elsewhere : ∀ other, mount.sb.bmap ≤ other → other ≠ blockno.toNat →
    final.disk other = disk other

theorem sizeWritten_yields (idle : mount.held = []) {post : Unit → Mount Task → Prop}
    (holds : ∀ state : Mount Task, state.sb = mount.sb → state.disk = mount.disk →
      state.icache slot = { mount.icache slot with di := { (mount.icache slot).di with
          fsize := (mount.icache slot).di.fsize + UInt32.ofNat BSIZE } } →
      post () { state with disk := state.dinodeWritten slot }) :
    Yields (do
      let inode ← getInode slot
      setDi slot { inode.di with fsize := inode.di.fsize + UInt32.ofNat BSIZE }
      iupdate slot) mount post := by
  rw [yields_bind, yields_getInode, yields_bind, yields_setDi]
  generalize (mount.icache slot).di.fsize + UInt32.ofNat BSIZE = size at holds ⊢
  rw [← Mount.withDi]
  have inode : ((mount.withDi slot { (mount.icache slot).di with fsize := size }).icache slot) =
      { mount.icache slot with di := { (mount.icache slot).di with fsize := size } } :=
    update_self _ _ _
  exact @iupdate_yields _ (mount.withDi slot _) _ _ idle (holds _ rfl rfl inode)

theorem grownTo_written (settled : Settled mount slot) (isData : mount.sb.IsData blockno)
    {di : Dinode} {block : Block} {state : Mount Task} (sameSb : state.sb = mount.sb)
    (inode : state.icache slot =
      { mount.icache slot with di := { di with fsize := di.fsize + UInt32.ofNat BSIZE } })
    (wrote : state.disk = update disk blockno.toNat block) :
    GrownTo mount { state with disk := state.dinodeWritten slot } slot blockno disk di ∧
      state.dinodeWritten slot blockno.toNat = block ∧
      ({ state with disk := state.dinodeWritten slot } : Mount Task).volume.ino
        (mount.icache slot).inum = (state.icache slot).di := by
  have address := settled.address_lt
  have mapped := settled.geometry.bmap_le
  have region := isData.1
  have sameInum : (state.icache slot).inum = (mount.icache slot).inum := by rw [inode]
  have elsewhere : ∀ other, mount.sb.bmap ≤ other →
      state.dinodeWritten slot other = update disk blockno.toNat block other := by
    intro other after
    rw [Mount.dinodeWritten, sameSb, sameInum, update_of_ne (by omega), wrote]
  refine ⟨⟨sameSb, fun i => ?_, ?_, fun other after different => ?_⟩, ?_, ?_⟩
  · simp only [inode]
    rw [Dinode.pointer, Dinode.pointer]
  · simp only [inode]
  · exact (elsewhere other after).trans (update_of_ne different _ _)
  · rw [elsewhere _ (by omega), update_self]
  · simp only [Mount.volume, Mount.dinodeWritten, sameSb, sameInum, update_self]
    rw [if_pos settled.inRange, dinode_setDinode _ _ (Nat.mod_lt _ (by decide)), if_pos rfl]

section
variable {final : Mount Task} {blockno : UInt32} {disk : Nat → Block} {di : Dinode}
  (formed : DirFormed mount slot n) (geometry : mount.sb.Geometry)
  (appended : BlockAppended mount (mount.icache slot).di n blockno disk di)
  (grown : GrownTo mount final slot blockno disk di)

namespace BlockAppended

include formed appended

theorem index_inUse {j : Nat} (nonzero : di.pointer (NDIRECT + j) ≠ 0) :
    mount.sb.IsData (di.pointer (NDIRECT + j)) ∧
      marked mount.sb disk (di.pointer (NDIRECT + j)) = true ∧
      (di.pointer (NDIRECT + j)).toNat ≠ blockno.toNat := by
  by_cases isNew : NeedsIndex n ∧ NDIRECT + j = indexOf n
  · rcases appended.newIndex isNew.1 with ⟨isData, _, different⟩
    rw [isNew.2]
    exact ⟨isData, (appended.marks _ isData).mpr (.inr (.inr ⟨isNew.1, rfl⟩)),
      fun same => different (UInt32.toNat_inj.mp same)⟩
  · rw [appended.pointers j isNew] at nonzero ⊢
    rcases formed.index_inUse (Nat.le_add_right _ j) nonzero with ⟨isData, isMarked⟩
    exact ⟨isData, (appended.marks _ isData).mpr (.inl isMarked),
      formed.index_ne_of_free (Nat.le_add_right _ j) nonzero appended.isFree⟩

theorem newIndex_ne {j other : Nat} (isNew : NeedsIndex n ∧ NDIRECT + j = indexOf n)
    (isOld : ¬ (NeedsIndex n ∧ NDIRECT + other = indexOf n))
    (nonzero : di.pointer (NDIRECT + other) ≠ 0) :
    di.pointer (NDIRECT + other) ≠ di.pointer (NDIRECT + j) := by
  rw [appended.pointers other isOld] at nonzero ⊢
  rw [isNew.2]
  exact fun same => formed.index_ne_of_free (Nat.le_add_right _ other) nonzero
    (appended.newIndex isNew.1).2.1 (congrArg UInt32.toNat same)

theorem index_inj {j other : Nat} (same : di.pointer (NDIRECT + j) = di.pointer (NDIRECT + other))
    (nonzero : di.pointer (NDIRECT + j) ≠ 0) : j = other := by
  by_cases isNew : NeedsIndex n ∧ NDIRECT + j = indexOf n
  · by_cases otherNew : NeedsIndex n ∧ NDIRECT + other = indexOf n
    · omega
    · exact absurd same.symm
        (appended.newIndex_ne formed isNew otherNew (fun isZero => nonzero (same.trans isZero)))
  · by_cases otherNew : NeedsIndex n ∧ NDIRECT + other = indexOf n
    · exact absurd same (appended.newIndex_ne formed otherNew isNew nonzero)
    · rw [appended.pointers j isNew] at same nonzero
      rw [appended.pointers other otherNew] at same
      exact formed.list.indexDistinct j other same nonzero

theorem index_iff (geometry : mount.sb.Geometry) (j : Nat) : di.pointer (NDIRECT + j) ≠ 0 ↔
    NDIRECT + j * IDX_CNT_PER_INDIRECT_BLCOK < n + 1 := by
  have old := formed.list.index j
  have here : NeedsIndex n ∧ NDIRECT + j = indexOf n ↔
      NDIRECT + j * IDX_CNT_PER_INDIRECT_BLCOK = n := by
    simp only [NeedsIndex, indexOf, NDIRECT, IDX_CNT_PER_INDIRECT_BLCOK, BSIZE]
    omega
  by_cases isNew : NeedsIndex n ∧ NDIRECT + j = indexOf n
  · have nonzero : di.pointer (NDIRECT + j) ≠ 0 := by
      rw [isNew.2]
      exact geometry.ne_zero (appended.newIndex isNew.1).1
    exact iff_of_true nonzero (by rw [here.mp isNew]; exact Nat.lt_succ_self n)
  · rw [appended.pointers j isNew, old]
    have different : NDIRECT + j * IDX_CNT_PER_INDIRECT_BLCOK ≠ n :=
      fun same => isNew (here.mpr same)
    omega

theorem listAt_ne_index {k : Nat} (inDir : k < n) (j : Nat) :
    (mount.listAt slot k).toNat ≠ (di.pointer (NDIRECT + j)).toNat := by
  by_cases isNew : NeedsIndex n ∧ NDIRECT + j = indexOf n
  · intro same
    have isFree := (appended.newIndex isNew.1).2.1
    rw [← isNew.2, ← UInt32.toNat_inj.mp same, (formed.inUse k inDir).2] at isFree
    cases isFree
  · rw [appended.pointers j isNew]
    exact (formed.index_ne inDir j).symm

theorem listAt_ne_new {k : Nat} (inDir : k < n) :
    (mount.listAt slot k).toNat ≠ blockno.toNat := by
  intro same
  have isFree := appended.isFree
  rw [← UInt32.toNat_inj.mp same, (formed.inUse k inDir).2] at isFree
  cases isFree

theorem disk_listAt {k : Nat} (inDir : k < n) :
    disk (mount.listAt slot k).toNat = mount.content slot k :=
  appended.contents _ (formed.inUse k inDir).1.1 (listAt_ne_index formed appended inDir)

end BlockAppended

namespace GrownTo

include appended grown in
theorem marked_eq {other : UInt32} (isData : mount.sb.IsData other) :
    marked mount.sb final.disk other = marked mount.sb disk other := by
  have mark := isData.mark_lt
  have region := appended.isData.1
  have lower := Nat.le_add_right mount.sb.bmap
    ((other.toNat - mount.sb.blocks) / BIT_CNT_PER_BLOCK)
  rw [marked, mapBit, grown.elsewhere _ lower (by omega), marked, mapBit]

include formed geometry appended grown

theorem listAt_eq (k : Nat) :
    final.listAt slot k = if k = n then blockno else mount.listAt slot k := by
  rw [Mount.listAt, Mount.listAt, ← appended.list k]
  by_cases direct : k < NDIRECT
  · rw [treeAt_direct _ _ direct, treeAt_direct _ _ direct, grown.pointers]
  · rw [treeAt_indirect _ _ direct, treeAt_indirect _ _ direct, grown.pointers]
    split
    case isTrue => rfl
    case isFalse nonzero =>
      have index := appended.index_inUse formed nonzero
      have same : final.disk (di.pointer (indexOf k)).toNat = disk (di.pointer (indexOf k)).toNat :=
        grown.elsewhere _ (Nat.le_trans geometry.bmap_le index.1.1) index.2.2
      rw [same]

theorem content_eq {k : Nat} (inDir : k < n) :
    final.content slot k = mount.content slot k := by
  rw [Mount.content, grown.listAt_eq formed geometry appended, if_neg (Nat.ne_of_lt inDir),
    grown.elsewhere _ (Nat.le_trans geometry.bmap_le (formed.inUse k inDir).1.1)
      (appended.listAt_ne_new formed inDir),
    appended.disk_listAt formed inDir]

theorem content_new : final.content slot n = final.disk blockno.toNat := by
  rw [Mount.content, grown.listAt_eq formed geometry appended, if_pos rfl]

variable (short : n < maxBlocks)
include short

theorem blockList_eq : final.blockList slot = mount.blockList slot ++ [blockno] := by
  have list := grown.listAt_eq formed geometry appended
  have length : (Terminated.read (· = 0) maxBlocks (mount.listAt slot)).length = n :=
    formed.list.length
  have last : final.listAt slot n = blockno := by rw [list, if_pos rfl]
  have longer := @Terminated.read_concat _ (· = 0) _ maxBlocks (mount.listAt slot)
    (final.listAt slot)
  rw [length, last] at longer
  refine longer short (fun k inDir => ?_) (geometry.ne_zero appended.isData) ?_
  · rw [list, if_neg (Nat.ne_of_lt inDir)]
  · rw [list, if_neg (Nat.succ_ne_self n), formed.tail _ (Nat.le_succ n)]

theorem listFormed : ListFormed final slot (n + 1) := by
  have sameList := grown.blockList_eq formed geometry appended short
  have notNew : blockno ∉ mount.blockList slot := by
    intro isOld
    rcases formed.list.exists_of_mem isOld with ⟨k, inDir, same⟩
    exact appended.listAt_ne_new formed inDir (congrArg UInt32.toNat same)
  constructor
  · have size := formed.list.size
    have bound : n * BSIZE + BSIZE < 2 ^ 32 := by
      simp only [maxBlocks, NDIRECT, NINDIRECT, IDX_CNT_PER_INDIRECT_BLCOK, BSIZE] at short ⊢
      omega
    have block : (UInt32.ofNat BSIZE).toNat = BSIZE := rfl
    rw [grown.size, appended.size, UInt32.toNat_add, size, block, Nat.mod_eq_of_lt bound,
      Nat.succ_mul]
  · rw [sameList, List.length_append, formed.list.length, List.length_singleton]
  · intro j
    rw [grown.pointers, appended.index_iff formed geometry]
  · rw [sameList]
    exact (List.nodup_append_comm.mp (List.nodup_cons.mpr ⟨notNew, formed.list.distinct⟩))
  · intro j
    rw [grown.pointers, sameList, List.mem_append, List.mem_singleton]
    rintro (isOld | isNew)
    · rcases formed.list.exists_of_mem isOld with ⟨k, inDir, same⟩
      exact appended.listAt_ne_index formed inDir j (congrArg UInt32.toNat same)
    · have nonzero := geometry.ne_zero appended.isData
      rw [← isNew] at nonzero
      exact (appended.index_inUse formed nonzero).2.2 (congrArg UInt32.toNat isNew)
  · intro j other
    rw [grown.pointers, grown.pointers]
    exact appended.index_inj formed

theorem dirFormed (counted : (final.disk blockno.toNat).Counted) :
    DirFormed final slot (n + 1) := by
  have list := grown.listAt_eq formed geometry appended
  have marks : ∀ other, mount.sb.IsData other → (marked final.sb final.disk other = true ↔
      marked mount.sb disk other = true) := by
    intro other isData
    rw [grown.sb, grown.marked_eq appended isData]
  refine ⟨grown.listFormed formed geometry appended short, ?_, ?_, ?_, ?_, ?_⟩
  · intro k outside
    rw [list, if_neg (by omega), formed.tail k (by omega)]
  · intro k inside
    rw [list, grown.sb]
    split
    case isTrue =>
      exact ⟨appended.isData, grown.sb ▸ (marks _ appended.isData).mpr
        ((appended.marks _ appended.isData).mpr (.inr (.inl rfl)))⟩
    case isFalse notLast =>
      rcases formed.inUse k (by omega) with ⟨isData, isMarked⟩
      exact ⟨isData, grown.sb ▸ (marks _ isData).mpr
        ((appended.marks _ isData).mpr (.inl isMarked))⟩
  · intro j needed
    have nonzero := (appended.index_iff formed geometry j).mpr needed
    rcases appended.index_inUse formed nonzero with ⟨isData, isMarked, _⟩
    rw [grown.pointers, grown.sb]
    exact ⟨isData, grown.sb ▸ (marks _ isData).mpr isMarked⟩
  · intro k inside
    by_cases last : k = n
    · rw [last, grown.content_new formed geometry appended]
      exact counted
    · rw [grown.content_eq formed geometry appended (by omega)]
      exact formed.counted k (by omega)
  · intro other isData isFree
    rw [grown.sb] at isData
    have notMarked : ¬ marked mount.sb disk other = true := by
      rw [← marks other isData, isFree]
      exact Bool.false_ne_true
    have noIndex : ∀ j, other.toNat ≠ (di.pointer (NDIRECT + j)).toNat := by
      intro j same
      have isIndex := UInt32.toNat_inj.mp same
      have nonzero := geometry.ne_zero isData
      rw [isIndex] at nonzero notMarked
      exact notMarked (appended.index_inUse formed nonzero).2.1
    rw [appended.marks other isData, not_or, not_or] at notMarked
    rcases notMarked with ⟨wasFree, notNew, _⟩
    rw [grown.elsewhere _ (Nat.le_trans geometry.bmap_le isData.1)
        (fun same => notNew (UInt32.toNat_inj.mp same)),
      appended.contents _ isData.1 noIndex]
    exact formed.clear other isData (Bool.eq_false_of_not_eq_true wasFree)

end GrownTo
end

/-! ## The whole call -/

/-- A slot that is not in use, the first in the order of the blocks and of their slots. -/
structure FirstFree (mount : Mount Task) (slot : Fin NINODE) (n : Nat) (place : Nat × Nat) :
    Prop where
  isPlace : place ∈ dentryPlaces n
  isFree : mount.dentry slot place = none
  first : ∀ other ∈ dentryPlaces n, mount.dentry slot other = none →
    place.1 < other.1 ∨ place.1 = other.1 ∧ place.2 ≤ other.2

def DirFull (mount : Mount Task) (slot : Fin NINODE) (n : Nat) : Prop :=
  ∀ place ∈ dentryPlaces n, mount.dentry slot place ≠ none

/-- One free block is appended to the list and marked, with an index block when it is the
first behind the direct ones. The size grows by it and is written to the disk. -/
structure OneBlockMore (mount final : Mount Task) (slot : Fin NINODE) (n : Nat)
    (blockno : UInt32) : Prop where
  list : final.blockList slot = mount.blockList slot ++ [blockno]
  wasFree : mount.sb.IsData blockno ∧ marked mount.sb mount.disk blockno = false
  marks : ∀ other, mount.sb.IsData other → (marked mount.sb final.disk other = true ↔
    marked mount.sb mount.disk other = true ∨ other = blockno ∨
      (n = NDIRECT ∧ other = (final.icache slot).di.pointer NDIRECT))
  size : (final.icache slot).di.fsize = (mount.icache slot).di.fsize + UInt32.ofNat BSIZE
  written : final.volume.ino (mount.icache slot).inum = (final.icache slot).di

/-- `dentry_add` returns and leaves a well-formed directory with one entry more; the entries
that were there keep their slots. The new one is in the first free slot, or in a new block
if there is none. -/
def AddExact (mount : Mount Task) (slot : Fin NINODE) (n : Nat) (inum : UInt32)
    (name : List UInt8) : Prop :=
  Yields (dentryAdd slot inum name) mount fun _ final => ∃ n' place,
    DirFormed final slot n' ∧
    (final.entries slot n').Perm ((name, inum) :: mount.entries slot n) ∧
    final.dentry slot place = some (name, inum) ∧
    (∀ other ∈ dentryPlaces n, ∀ entry, mount.dentry slot other = some entry →
      final.dentry slot other = some entry) ∧
    ((FirstFree mount slot n place ∧ n' = n ∧ final.blockList slot = mount.blockList slot) ∨
      (DirFull mount slot n ∧ n' = n + 1 ∧ place = (n, 1) ∧
        ∃ blockno, OneBlockMore mount final slot n blockno))

section
variable (formed : DirFormed mount slot n) (valid : Block.Valid name)
include formed valid

theorem DirFormed.addedInPlace {k j : Nat} (inDir : k < n)
    (found : freeEntry (mount.content slot k) = some j)
    (earlier : ∀ m < k, freeEntry (mount.content slot m) = none) :
    let final := mount.withContent slot k ((mount.content slot k).addEntry j inum name)
    DirFormed final slot n ∧
    (final.entries slot n).Perm ((name, inum) :: mount.entries slot n) ∧
    final.dentry slot (k, j) = some (name, inum) ∧
    (∀ other ∈ dentryPlaces n, ∀ entry, mount.dentry slot other = some entry →
      final.dentry slot other = some entry) ∧
    FirstFree mount slot n (k, j) ∧ final.blockList slot = mount.blockList slot := by
  rcases freeEntry_eq_some found with ⟨isSlot, dead⟩
  have entered : Block.Entered (mount.content slot k)
      ((mount.content slot k).addEntry j inum name) j inum name := entered_add isSlot
  have isPlace : (k, j) ∈ dentryPlaces n := mem_dentryPlaces.mpr ⟨inDir, isSlot⟩
  have wasFree : mount.dentry slot (k, j) = none := entry_eq_none dead
  have filled : (mount.withContent slot k ((mount.content slot k).addEntry j inum name)).dentry slot
      (k, j) = some (name, inum) := by
    rw [formed.dentry_withContent inDir _ isPlace, if_pos rfl]
    exact entered.entry_at valid
  have others : ∀ other ∈ dentryPlaces n, other ≠ (k, j) →
      (mount.withContent slot k ((mount.content slot k).addEntry j inum name)).dentry slot other =
        mount.dentry slot other := by
    intro other isOther different
    rw [formed.dentry_withContent inDir _ isOther]
    split
    case isTrue here =>
      have otherSlot : other.2 ≠ j := fun same => different (Prod.ext here same)
      rw [entered.entry_other (mem_dentryPlaces.mp isOther).2 otherSlot, Mount.dentry, here]
    case isFalse => rfl
  refine ⟨formed.withContent inDir _ (entered.counted isSlot valid dead (formed.counted k inDir)),
    Occupied.values_fill (nodup_dentryPlaces n) isPlace wasFree filled others, filled, ?_,
    ⟨isPlace, wasFree, ?_⟩, ?_⟩
  · intro other isOther entry atOther
    have different : other ≠ (k, j) := by
      rintro rfl
      rw [wasFree] at atOther
      cases atOther
    rw [others other isOther different, atOther]
  · intro other isOther otherFree
    rcases mem_dentryPlaces.mp isOther with ⟨_, otherSlot⟩
    rw [Mount.dentry, entry_eq_none_iff] at otherFree
    rcases Nat.lt_trichotomy k other.1 with before | rfl | after
    · exact .inl before
    · exact .inr ⟨rfl, freeEntry_first found otherSlot otherFree⟩
    · have isLive := freeEntry_eq_none (earlier _ after) otherSlot
      rw [otherFree] at isLive
      cases isLive
  · have same : (mount.withContent slot k ((mount.content slot k).addEntry j inum name)).listAt slot
        = mount.listAt slot := funext (formed.listAt_withContent inDir _)
    rw [Mount.blockList, same, ← Mount.blockList]

theorem GrownTo.added {final : Mount Task} {blockno : UInt32} {disk : Nat → Block} {di : Dinode}
    (geometry : mount.sb.Geometry)
    (appended : BlockAppended mount (mount.icache slot).di n blockno disk di)
    (grown : GrownTo mount final slot blockno disk di) (short : n < maxBlocks)
    (entered : Block.Entered 0 (final.disk blockno.toNat) 1 inum name) :
    DirFormed final slot (n + 1) ∧
    (final.entries slot (n + 1)).Perm ((name, inum) :: mount.entries slot n) ∧
    final.dentry slot (n, 1) = some (name, inum) ∧
    (∀ other ∈ dentryPlaces n, final.dentry slot other = mount.dentry slot other) := by
  have isSlot : Block.Slot 1 := ⟨Nat.le_refl 1, by decide⟩
  have same : ∀ other ∈ dentryPlaces n, final.dentry slot other = mount.dentry slot other := by
    intro other isOther
    rw [Mount.dentry, grown.content_eq formed geometry appended (mem_dentryPlaces.mp isOther).1,
      Mount.dentry]
  have filled : final.dentry slot (n, 1) = some (name, inum) := by
    rw [Mount.dentry, grown.content_new formed geometry appended]
    exact entered.entry_at valid
  have counted : (final.disk blockno.toNat).Counted :=
    entered.counted isSlot valid (live_zero 1) counted_zero
  refine ⟨grown.dirFormed formed geometry appended short counted, ?_, filled, same⟩
  -- Before the call the slots of the new block hold nothing.
  have before : mount.entries slot n = Occupied.values (dentryPlaces (n + 1)) fun place =>
      if place.1 < n then mount.dentry slot place else none := by
    rw [dentryPlaces_succ, Occupied.values_append, Mount.entries]
    have nothing : Occupied.values ((List.range' 1 Block.dentryMax).map (n, ·)) (fun place =>
        if place.1 < n then mount.dentry slot place else none) = [] := by
      rw [Occupied.values, List.filterMap_eq_nil_iff]
      intro place isPlace
      rcases List.mem_map.mp isPlace with ⟨j, _, rfl⟩
      exact if_neg (Nat.lt_irrefl n)
    rw [nothing, List.append_nil]
    refine Occupied.values_congr fun place isPlace => ?_
    rw [if_pos (mem_dentryPlaces.mp isPlace).1]
  rw [before]
  refine Occupied.values_fill (nodup_dentryPlaces (n + 1))
    (mem_dentryPlaces.mpr ⟨Nat.lt_succ_self n, isSlot⟩) (if_neg (Nat.lt_irrefl n)) filled ?_
  intro other isOther different
  rcases mem_dentryPlaces.mp isOther with ⟨inside, otherSlot⟩
  split
  case isTrue inDir => exact same other (mem_dentryPlaces.mpr ⟨inDir, otherSlot⟩)
  case isFalse outside =>
    have last : other.1 = n := by omega
    have notFirst : other.2 ≠ 1 := fun first => different (Prod.ext last first)
    rw [Mount.dentry, last, grown.content_new formed geometry appended,
      entered.entry_other otherSlot notFirst]
    exact entry_eq_none (live_zero _)

theorem DirFormed.addedInNew (settled : Settled mount slot) (few : n < FILE_MAX_DATA_BLOCKNUM)
    (free : HasFree mount (blocksNeeded n)) :
    Yields (do
      let b ← dataBlockAlloc slot
      bwrite { b with data := setEntry (b.data.setU64 0 1) 1 inum name }
      brelse b
      let inode ← getInode slot
      setDi slot { inode.di with fsize := inode.di.fsize + UInt32.ofNat BSIZE }
      iupdate slot) mount fun _ final =>
      DirFormed final slot (n + 1) ∧
      (final.entries slot (n + 1)).Perm ((name, inum) :: mount.entries slot n) ∧
      final.dentry slot (n, 1) = some (name, inum) ∧
      (∀ other ∈ dentryPlaces n, final.dentry slot other = mount.dentry slot other) ∧
      ∃ blockno, OneBlockMore mount final slot n blockno := by
  have geometry := settled.geometry
  have short : n < maxBlocks := Nat.lt_trans few (by decide)
  have place : appendPlace (mount.icache slot).di = n := by
    rw [appendPlace, formed.list.iblockCnt_eq]
    simp only [FILE_MAX_DATA_BLOCKNUM, NDIRECT, NINDIRECT] at few
    omega
  rw [yields_bind]
  refine (@dataBlockAlloc_yields _ _ slot geometry settled.idle (by rwa [place])
    (by rw [place]; omega) (by rwa [place])).mono ?_
  rintro _ _ ⟨blockno, disk, di, rfl, stored, rfl⟩
  rw [place] at stored
  have appended := formed.blockAppended geometry stored
  have isClear : disk blockno.toNat = 0 := by
    refine (appended.contents _ appended.isData.1 fun j same => ?_).trans
      (formed.clear blockno appended.isData appended.isFree)
    have nonzero := geometry.ne_zero appended.isData
    rw [UInt32.toNat_inj.mp same] at nonzero
    exact (appended.index_inUse formed nonzero).2.2 same.symm
  rw [yields_bind, yields_bwrite]
  refine ⟨List.mem_cons_self, ?_⟩
  rw [yields_bind]
  refine yields_brelse_head rfl ?_
  refine sizeWritten_yields rfl fun state sameSb wrote inode => ?_
  simp only [Mount.withDi, update_self] at inode
  have entered := entered_new inum name
  rw [← isClear] at entered
  generalize setEntry ((disk blockno.toNat).setU64 0 1) 1 inum name = block at entered wrote
  replace wrote : state.disk = update disk blockno.toNat block := wrote
  rcases grownTo_written settled appended.isData sameSb inode wrote with
    ⟨grown, contents, written⟩
  rw [isClear, ← contents] at entered
  rcases grown.added formed valid geometry appended short entered with
    ⟨formed', entries, filled, same⟩
  have single : NeedsIndex n ↔ n = NDIRECT := by
    simp only [NeedsIndex, FILE_MAX_DATA_BLOCKNUM, NDIRECT, NINDIRECT, IDX_CNT_PER_INDIRECT_BLCOK,
      BSIZE] at few ⊢
    omega
  refine ⟨formed', entries, filled, same, blockno, grown.blockList_eq formed geometry appended short,
    ⟨appended.isData, appended.isFree⟩, fun other isData => ?_, ?_, written⟩
  · rw [grown.marked_eq appended isData, appended.marks other isData, grown.pointers, single]
    refine or_congr_right (or_congr_right (and_congr_right fun first => ?_))
    subst first
    rfl
  · rw [grown.size, appended.size]

end

theorem addExact (settled : Settled mount slot) (formed : DirFormed mount slot n) (few : n < 24)
    (valid : Block.Valid name) (inum : UInt32)
    (room : DirFull mount slot n → HasFree mount (blocksNeeded n)) :
    AddExact mount slot n inum name := by
  rw [AddExact, dentryAdd, yields_bind, yields_getInode, formed.list.iblockCnt_eq,
    Int.toNat_natCast, yields_bind]
  refine (formed.addInFrom_yields settled.idle n 0 (Nat.zero_add n)).mono ?_
  rintro _ _ (noneFree | @⟨k, j, inDir, found, earlier⟩)
  · rw [if_neg Bool.false_ne_true]
    have full : DirFull mount slot n := by
      intro place isPlace isFree
      rcases mem_dentryPlaces.mp isPlace with ⟨inside, isSlot⟩
      have isLive := freeEntry_eq_none (noneFree _ (Nat.zero_le _) inside) isSlot
      rw [entry_eq_none_iff.mp isFree] at isLive
      cases isLive
    refine (formed.addedInNew valid settled few (room full)).mono ?_
    rintro _ last ⟨formed', entries, filled, same, grown⟩
    refine ⟨n + 1, (n, 1), formed', entries, filled, fun other isOther entry atOther => ?_,
      .inr ⟨full, rfl, rfl, grown⟩⟩
    rw [same other isOther, atOther]
  · rw [if_pos rfl, yields_pure]
    rcases formed.addedInPlace valid inDir found fun m before =>
        earlier m (Nat.zero_le m) before with
      ⟨formed', entries, filled, keeps, first, sameList⟩
    exact ⟨n, (k, j), formed', entries, filled, keeps, .inl ⟨first, rfl, sameList⟩⟩

def fullBlock : Block :=
  (List.range' 1 Block.dentryMax).foldl (fun data j => data.addEntry j 5 [UInt8.ofNat j]) 0

theorem counted_fullBlock : fullBlock.Counted := by decide +kernel

theorem addExact_fullBlock : AddExact (smallDir 1 fullBlock) 0 1 7 [97] := by
  refine addExact (settled_smallDir _ _) (dirFormed_smallDir (by decide +kernel) counted_fullBlock)
    (by decide) (by decide) 7 fun _ => ⟨[702], List.nodup_singleton _, rfl, ?_⟩
  intro blockno isFree
  rw [List.mem_singleton.mp isFree]
  decide +kernel

/-- Without a free block the call panics. -/
theorem dentryAdd_panics : Settled (smallDir (BitVec.allOnes 8192) fullBlock) 0 ∧
    DirFormed (smallDir (BitVec.allOnes 8192) fullBlock) 0 1 ∧
    (dentryAdd 0 7 [97] (smallDir (BitVec.allOnes 8192) fullBlock)).map (fun _ => ()) =
      .error (.panic "balloc: space exhausted") :=
  ⟨settled_smallDir _ _, dirFormed_smallDir (by decide +kernel) counted_fullBlock,
    by decide +kernel⟩

end Tnix.Fs
