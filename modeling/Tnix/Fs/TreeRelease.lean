import Tnix.Fs.BlockAllocation
import Tnix.Fs.BlockIndex

/-! # Giving up a block tree

`itrunc` on an inode of which only its own tree is known: what it frees, what it clears
and what it leaves alone. -/

namespace Tnix.Fs

open Function Program TreePlace
variable {Task : Type} {mount : Mount Task} {slot : Fin NINODE} {sb : Superblock}
  {disk disk' : Nat → Block} {freed : List UInt32} {blockno : UInt32}

/-! ## Places of a tree -/

def TreePlace.root : TreePlace → Nat
  | .data k => if k < NDIRECT then k else NDIRECT + (k - NDIRECT) / IDX_CNT_PER_INDIRECT_BLCOK
  | .index j => NDIRECT + j

def Dinode.cutTo (di : Dinode) (i : Nat) : Dinode :=
  { di with fsize := 0, iblock := fun e => if e.val < i then 0 else di.iblock e }

theorem Dinode.pointer_cutTo (di : Dinode) (i e : Nat) :
    (di.cutTo i).pointer e = if e < i then 0 else di.pointer e := by
  simp only [pointer, cutTo]
  split
  · rfl
  · rw [ite_self]

theorem Dinode.cutTo_succ (di : Dinode) {i : Nat} (inRange : i < NDIRECT + NINDIRECT) :
    (di.cutTo i).setPointer i 0 = di.cutTo (i + 1) := by
  rw [setPointer, dif_pos inRange]
  simp only [cutTo, mk.injEq, true_and]
  funext e
  by_cases same : e = ⟨i, inRange⟩
  · subst same
    rw [update_self, if_pos (Nat.lt_succ_self i)]
  · have different : e.val ≠ i := fun equal => same (Fin.ext equal)
    have bound : e.val < i + 1 ↔ e.val < i := by omega
    rw [update_of_ne same]
    simp only [bound]

theorem Dinode.cutTo_eq (di : Dinode) {i : Nat} (rest : ∀ e, i ≤ e → di.pointer e = 0) :
    di.cutTo i = { di with fsize := 0, iblock := fun _ => 0 } := by
  simp only [cutTo, mk.injEq, true_and]
  funext e
  split
  · rfl
  · have isZero := rest e.val (by omega)
    rwa [pointer, dif_pos e.isLt] at isZero

def TreePlace.ofRoot (i : Nat) : TreePlace := if i < NDIRECT then .data i else .index (i - NDIRECT)

theorem TreePlace.root_ofRoot (i : Nat) : (TreePlace.ofRoot i).root = i := by
  rw [ofRoot]
  split
  case isTrue direct => rw [root, if_pos direct]
  case isFalse indirect => rw [root, Nat.add_sub_of_le (by omega)]

theorem TreePlace.root_eq_iff {i : Nat} {place : TreePlace} (notOwn : place ≠ .ofRoot i) :
    place.root = i ↔ NDIRECT ≤ i ∧ ∃ word, word < IDX_CNT_PER_INDIRECT_BLCOK ∧
      place = .data (NDIRECT + (i - NDIRECT) * IDX_CNT_PER_INDIRECT_BLCOK + word) := by
  have words : 0 < IDX_CNT_PER_INDIRECT_BLCOK := by decide
  cases place with
  | index j =>
    simp only [root, reduceCtorEq, and_false, exists_false, iff_false]
    rintro rfl
    apply notOwn
    rw [ofRoot, if_neg (by omega), Nat.add_sub_cancel_left]
  | data k =>
    simp only [root, data.injEq]
    split
    case isTrue direct =>
      constructor
      · rintro rfl
        exact absurd (by rw [ofRoot, if_pos direct]) notOwn
      · rintro ⟨indirect, word, _, rfl⟩
        omega
    case isFalse indirect =>
      constructor
      · rintro rfl
        refine ⟨Nat.le_add_right _ _, (k - NDIRECT) % IDX_CNT_PER_INDIRECT_BLCOK,
          Nat.mod_lt _ words, ?_⟩
        have parts := Nat.div_add_mod (k - NDIRECT) IDX_CNT_PER_INDIRECT_BLCOK
        rw [Nat.add_sub_cancel_left, Nat.add_assoc, Nat.mul_comm, parts]
        omega
      · rintro ⟨_, word, inBlock, rfl⟩
        have inner : NDIRECT + (i - NDIRECT) * IDX_CNT_PER_INDIRECT_BLCOK + word - NDIRECT =
            word + (i - NDIRECT) * IDX_CNT_PER_INDIRECT_BLCOK := by omega
        rw [inner, Nat.add_mul_div_right _ _ words, Nat.div_eq_of_lt inBlock]
        omega

/-! ## Blocks given up -/

def marked (sb : Superblock) (disk : Nat → Block) (blockno : UInt32) : Bool :=
  mapBit disk sb.bmap (blockno.toNat - sb.blocks)

/-- The listed blocks are cleared and their marks are gone, and nothing else is changed. -/
structure GivenUp (sb : Superblock) (disk disk' : Nat → Block) (freed : List UInt32) : Prop where
  isData : ∀ blockno ∈ freed, sb.IsData blockno
  cleared : ∀ blockno ∈ freed, disk' blockno.toNat = 0
  marks : ∀ blockno, sb.IsData blockno →
    (marked sb disk' blockno = true ↔ marked sb disk blockno = true ∧ blockno ∉ freed)
  elsewhere : ∀ n, ¬ (sb.bmap ≤ n ∧ n < sb.blocks) → (∀ blockno ∈ freed, n ≠ blockno.toNat) →
    disk' n = disk n

theorem givenUp_nil (sb : Superblock) (disk : Nat → Block) : GivenUp sb disk disk [] :=
  ⟨fun _ isFreed => absurd isFreed List.not_mem_nil,
    fun _ isFreed => absurd isFreed List.not_mem_nil,
    fun _ _ => ⟨fun isMarked => ⟨isMarked, List.not_mem_nil⟩, And.left⟩, fun _ _ _ => rfl⟩

theorem Superblock.IsData.mark_lt (isData : sb.IsData blockno) :
    sb.bmap + (blockno.toNat - sb.blocks) / BIT_CNT_PER_BLOCK < sb.blocks := by
  simp only [Superblock.IsData, BIT_CNT_PER_BLOCK, BSIZE] at isData ⊢
  omega

namespace GivenUp

variable (givenUp : GivenUp sb disk disk' freed)
include givenUp

theorem disk_of_not_mem (isData : sb.IsData blockno)
    (kept : blockno ∉ freed) : disk' blockno.toNat = disk blockno.toNat := by
  apply givenUp.elsewhere
  · have region := isData.1
    omega
  · intro other isFreed same
    exact kept (UInt32.toNat_inj.mp same ▸ isFreed)

theorem cons (isData : sb.IsData blockno)
    {next : Nat → Block} (wrote : MapWrite (update disk' blockno.toNat 0) next sb.bmap
      (blockno.toNat - sb.blocks) false) : GivenUp sb disk next (blockno :: freed) := by
  have mark := isData.mark_lt
  have region := isData.1
  have inData : ∀ other ∈ blockno :: freed, sb.IsData other := by
    intro other isFreed
    rcases List.mem_cons.mp isFreed with rfl | wasFreed
    · exact isData
    · exact givenUp.isData other wasFreed
  refine ⟨inData, ?_, ?_, ?_⟩
  · intro other isFreed
    have otherRegion := (inData other isFreed).1
    rw [wrote.elsewhere _ (by omega)]
    rcases List.mem_cons.mp isFreed with rfl | wasFreed
    · rw [update_self]
    · by_cases same : other.toNat = blockno.toNat
      · rw [same, update_self]
      · rw [update_of_ne same, givenUp.cleared other wasFreed]
  · intro other otherData
    have otherMark := otherData.mark_lt
    rw [marked, wrote.bit]
    by_cases same : other = blockno
    · subst same
      simp
    · have different : other.toNat - sb.blocks ≠ blockno.toNat - sb.blocks := by
        intro equal
        apply same
        rw [← UInt32.toNat_inj]
        have := otherData.1
        omega
      rw [if_neg different, mapBit, update_of_ne (by omega), ← mapBit, ← marked,
        givenUp.marks other otherData, List.mem_cons, not_or]
      simp [same]
  · intro n notMap apart
    have notBlock := apart blockno List.mem_cons_self
    have inMap := Nat.le_add_right sb.bmap ((blockno.toNat - sb.blocks) / BIT_CNT_PER_BLOCK)
    rw [wrote.elsewhere n (by omega), update_of_ne notBlock]
    exact givenUp.elsewhere n notMap fun other isFreed =>
      apart other (List.mem_cons_of_mem _ isFreed)

end GivenUp

theorem giveUp_yields (isData : mount.sb.IsData blockno)
    (isMarked : marked mount.sb mount.disk blockno = true) {held : List Nat} {block : Block}
    (isHead : mount.held = blockno.toNat :: held)
    (unlocked : Unlocked held mount.sb.bmap mount.sb.blocks) {post : Unit → Mount Task → Prop}
    (continues : ∀ next, MapWrite (update mount.disk blockno.toNat 0) next mount.sb.bmap
        (blockno.toNat - mount.sb.blocks) false →
      post () { mount with disk := next, held := held }) :
    Yields (bzero ⟨blockno.toNat, block⟩) mount fun _ cleared =>
      Yields (brelse ⟨blockno.toNat, block⟩) cleared fun _ closed =>
        Yields (bfree blockno) closed post := by
  have region := isData.1
  have mark := isData.mark_lt
  rw [bzero, yields_bwrite]
  refine ⟨by rw [isHead]; exact List.mem_cons_self, yields_brelse_head isHead ?_⟩
  have inMap : blockno.toNat - mount.sb.blocks < mount.sb.bmapBits := by
    rw [Superblock.bmapBits]
    have := isData.2
    omega
  have frees := @bfreeExact _ { mount with
    disk := update mount.disk blockno.toNat 0, held := held } unlocked _ _ inMap
    (Nat.add_sub_of_le region).symm
  have isSet : mapBit (update mount.disk blockno.toNat 0) mount.sb.bmap
      (blockno.toNat - mount.sb.blocks) = true := by
    rw [mapBit, update_of_ne (by omega)]
    exact isMarked
  refine (frees.yields fun _ stopped => ?_).mono ?_
  · exact Bool.false_ne_true (stopped.2.symm.trans isSet)
  · rintro _ _ ⟨_, next, rfl, wrote⟩
    exact continues next wrote

theorem clearBlock_yields (isData : mount.sb.IsData blockno)
    (isMarked : marked mount.sb mount.disk blockno = true) (notHeld : blockno.toNat ∉ mount.held)
    (unlocked : Unlocked mount.held mount.sb.bmap mount.sb.blocks) {post : Unit → Mount Task → Prop}
    (continues : ∀ next, MapWrite (update mount.disk blockno.toNat 0) next mount.sb.bmap
        (blockno.toNat - mount.sb.blocks) false → post () { mount with disk := next }) :
    Yields (clearBlock blockno) mount post := by
  simp only [clearBlock, yields_bind, yields_bread]
  exact ⟨notHeld, unlocked.few,
    @giveUp_yields _ { mount with held := blockno.toNat :: mount.held } _ isData isMarked
      _ _ rfl unlocked _ continues⟩

theorem itruncIndexFrom_yields (index : Block)
    (isData : ∀ j, j < IDX_CNT_PER_INDIRECT_BLCOK → index.u32 j ≠ 0 →
      mount.sb.IsData (index.u32 j) ∧ marked mount.sb disk (index.u32 j) = true)
    (packed : ∀ j later, j ≤ later → later < IDX_CNT_PER_INDIRECT_BLCOK → index.u32 j = 0 →
      index.u32 later = 0)
    (distinct : ∀ j later, j < IDX_CNT_PER_INDIRECT_BLCOK → later < IDX_CNT_PER_INDIRECT_BLCOK →
      index.u32 j = index.u32 later → index.u32 j ≠ 0 → j = later)
    (unlocked : Unlocked mount.held mount.sb.bmap mount.sb.blocks)
    (notHeld : ∀ j, j < IDX_CNT_PER_INDIRECT_BLCOK → index.u32 j ≠ 0 →
      (index.u32 j).toNat ∉ mount.held) (remaining : Nat) :
    ∀ (j : Nat) (now : Nat → Block) (freed : List UInt32),
      j + remaining = IDX_CNT_PER_INDIRECT_BLCOK → GivenUp mount.sb disk now freed →
      (∀ word, j ≤ word → word < IDX_CNT_PER_INDIRECT_BLCOK → index.u32 word ≠ 0 →
        index.u32 word ∉ freed) →
      Yields (itruncIndexFrom index remaining j) { mount with disk := now } fun _ final =>
        ∃ next freed', final = { mount with disk := next } ∧ GivenUp mount.sb disk next freed' ∧
          ∀ blockno, blockno ∈ freed' ↔ blockno ∈ freed ∨
            (blockno ≠ 0 ∧ ∃ word, j ≤ word ∧ word < IDX_CNT_PER_INDIRECT_BLCOK ∧
              index.u32 word = blockno) := by
  induction remaining with
  | zero =>
    intro j now freed total givenUp _
    rw [itruncIndexFrom, yields_pure]
    refine ⟨now, freed, rfl, givenUp, fun blockno => ⟨.inl, ?_⟩⟩
    rintro (isFreed | ⟨_, word, atLeast, inBlock, _⟩)
    · exact isFreed
    · omega
  | succ remaining induction =>
    intro j now freed total givenUp fresh
    rw [itruncIndexFrom]
    split
    case isTrue isZero =>
      rw [yields_pure]
      refine ⟨now, freed, rfl, givenUp, fun blockno => ⟨.inl, ?_⟩⟩
      rintro (isFreed | ⟨nonzero, word, atLeast, inBlock, same⟩)
      · exact isFreed
      · rw [packed j word atLeast inBlock isZero] at same
        exact absurd same.symm nonzero
    case isFalse nonzero =>
      have inBlock : j < IDX_CNT_PER_INDIRECT_BLCOK := by omega
      rcases isData j inBlock nonzero with ⟨itsData, wasMarked⟩
      have isMarked := (givenUp.marks _ itsData).mpr
        ⟨wasMarked, fresh j (Nat.le_refl j) inBlock nonzero⟩
      rw [yields_bind]
      refine @clearBlock_yields _ { mount with disk := now } _ itsData isMarked
        (notHeld j inBlock nonzero) unlocked _ ?_
      intro next wrote
      refine (induction (j + 1) next _ (by omega) (givenUp.cons itsData wrote) ?_).mono ?_
      · intro word atLeast inWord present isFreed
        rcases List.mem_cons.mp isFreed with same | wasFreed
        · have := distinct word j inWord inBlock same present
          omega
        · exact fresh word (by omega) inWord present wasFreed
      · rintro _ _ ⟨next', freed', rfl, givenUp', members⟩
        refine ⟨next', freed', rfl, givenUp', fun blockno => ?_⟩
        rw [members, List.mem_cons]
        constructor
        · rintro ((rfl | isFreed) | ⟨present, word, atLeast, inWord, same⟩)
          · exact .inr ⟨nonzero, j, Nat.le_refl j, inBlock, rfl⟩
          · exact .inl isFreed
          · exact .inr ⟨present, word, by omega, inWord, same⟩
        · rintro (isFreed | ⟨present, word, atLeast, inWord, same⟩)
          · exact .inl (.inr isFreed)
          · by_cases here : word = j
            · subst here
              exact .inl (.inl same.symm)
            · exact .inr ⟨present, word, by omega, inWord, same⟩

/-! ## The tree -/

def Dinode.treeAt (disk : Nat → Block) (di : Dinode) : TreePlace → UInt32
  | .index j => di.pointer (NDIRECT + j)
  | .data k =>
    if NDIRECT ≤ k ∧ di.pointer (NDIRECT + (k - NDIRECT) / IDX_CNT_PER_INDIRECT_BLCOK) = 0 then 0
    else di.blockAt disk k

/-- A data or index block of the tree. -/
def Dinode.InTree (disk : Nat → Block) (di : Dinode) (blockno : UInt32) : Prop :=
  blockno ≠ 0 ∧ ∃ place, di.treeAt disk place = blockno

/-- The block numbers are a prefix of `iblock` and of each index block; they are distinct
numbers of data blocks in use. -/
structure TreeFormed (sb : Superblock) (disk : Nat → Block) (di : Dinode) : Prop where
  pointers : ∀ i later, i ≤ later → di.pointer i = 0 → di.pointer later = 0
  words : ∀ j, di.pointer (NDIRECT + j) ≠ 0 → ∀ word later, word ≤ later →
    later < IDX_CNT_PER_INDIRECT_BLCOK →
    (disk (di.pointer (NDIRECT + j)).toNat).u32 word = 0 →
    (disk (di.pointer (NDIRECT + j)).toNat).u32 later = 0
  inUse : ∀ place, di.treeAt disk place ≠ 0 →
    sb.IsData (di.treeAt disk place) ∧ marked sb disk (di.treeAt disk place) = true
  distinct : ∀ place other, di.treeAt disk place = di.treeAt disk other →
    di.treeAt disk place ≠ 0 → place = other

namespace Dinode

variable {di : Dinode}

theorem treeAt_ofRoot (disk : Nat → Block) (di : Dinode) (i : Nat) :
    di.treeAt disk (.ofRoot i) = di.pointer i := by
  rw [TreePlace.ofRoot]
  split
  case isTrue direct =>
    rw [treeAt, if_neg (fun both => Nat.not_le.mpr direct both.1), blockAt_direct disk di direct]
  case isFalse indirect => rw [treeAt, Nat.add_sub_of_le (by omega)]

theorem treeAt_word {i word : Nat} (indirect : NDIRECT ≤ i) (nonzero : di.pointer i ≠ 0)
    (inBlock : word < IDX_CNT_PER_INDIRECT_BLCOK) :
    di.treeAt disk (.data (NDIRECT + (i - NDIRECT) * IDX_CNT_PER_INDIRECT_BLCOK + word)) =
      (disk (di.pointer i).toNat).u32 word := by
  have words : 0 < IDX_CNT_PER_INDIRECT_BLCOK := by decide
  have inner : NDIRECT + (i - NDIRECT) * IDX_CNT_PER_INDIRECT_BLCOK + word - NDIRECT =
      word + (i - NDIRECT) * IDX_CNT_PER_INDIRECT_BLCOK := by omega
  have root : NDIRECT + (word + (i - NDIRECT) * IDX_CNT_PER_INDIRECT_BLCOK) /
      IDX_CNT_PER_INDIRECT_BLCOK = i := by
    rw [Nat.add_mul_div_right _ _ words, Nat.div_eq_of_lt inBlock]
    omega
  rw [treeAt, inner, root, if_neg (fun both => nonzero both.2), blockAt, if_neg (by omega), inner,
    root, Nat.add_mul_mod_self_right, Nat.mod_eq_of_lt inBlock]

theorem treeAt_of_root (disk : Nat → Block) {place : TreePlace}
    (isZero : di.pointer place.root = 0) : di.treeAt disk place = 0 := by
  cases place with
  | index j => exact isZero
  | data k =>
    rw [TreePlace.root] at isZero
    rw [treeAt]
    split at isZero
    case isTrue direct =>
      rw [if_neg (fun both => Nat.not_le.mpr direct both.1), blockAt_direct disk di direct, isZero]
    case isFalse indirect => rw [if_pos ⟨Nat.not_lt.mp indirect, isZero⟩]

end Dinode

def Mount.cutting (mount : Mount Task) (slot : Fin NINODE) (i : Nat) (disk : Nat → Block) :
    Mount Task :=
  { mount with
    disk := disk
    icache := update mount.icache slot
      { mount.icache slot with di := (mount.icache slot).di.cutTo i } }

theorem Mount.cutting_succ (mount : Mount Task) (slot : Fin NINODE) {i : Nat}
    (inRange : i < NDIRECT + NINDIRECT) :
    { mount.cutting slot i disk with
      icache := update (mount.cutting slot i disk).icache slot
        { (mount.cutting slot i disk).icache slot with
          di := ((mount.cutting slot i disk).icache slot).di.setPointer i 0 } } =
      mount.cutting slot (i + 1) disk := by
  simp only [cutting, update_self, update_idem, Dinode.cutTo_succ _ inRange]

/-- Freed are the blocks of the given places, where the tree has them. -/
def FreedAt (mount : Mount Task) (slot : Fin NINODE) (given : TreePlace → Prop)
    (freed : List UInt32) : Prop :=
  ∀ blockno, blockno ∈ freed ↔ blockno ≠ 0 ∧ ∃ place, given place ∧
    (mount.icache slot).di.treeAt mount.disk place = blockno

/-- The places given up when the pointer itself is next: those of the pointers before it, and
what its index block lists. -/
def TreePlace.Under (i : Nat) (place : TreePlace) : Prop :=
  place.root < i ∨ place.root = i ∧ place ≠ .ofRoot i

theorem TreePlace.not_under_ofRoot (i : Nat) : ¬ Under i (.ofRoot i) := by
  rintro (before | ⟨_, different⟩)
  · rw [root_ofRoot] at before
    exact Nat.lt_irrefl i before
  · exact different rfl

theorem TreePlace.root_lt_succ_iff {i : Nat} {place : TreePlace} :
    place.root < i + 1 ↔ place = .ofRoot i ∨ Under i place := by
  constructor
  · intro atMost
    by_cases own : place = .ofRoot i
    · exact .inl own
    · exact .inr ((Nat.lt_succ_iff_lt_or_eq.mp atMost).imp_right fun equal => ⟨equal, own⟩)
  · rintro (rfl | before | ⟨equal, _⟩)
    · rw [root_ofRoot]
      exact Nat.lt_succ_self i
    · exact Nat.lt_succ_of_lt before
    · exact Nat.lt_succ_of_le equal.le

/-- The loop has got to the first pointer that is 0, and the tree is given up. -/
def TreeGone (mount : Mount Task) (slot : Fin NINODE) (final : Mount Task) : Prop :=
  ∃ last next freed, final = mount.cutting slot last next ∧
    (∀ e, last ≤ e → (mount.icache slot).di.pointer e = 0) ∧
    GivenUp mount.sb mount.disk next freed ∧
    ∀ blockno, blockno ∈ freed ↔ (mount.icache slot).di.InTree mount.disk blockno

section
variable {i : Nat} {now : Nat → Block}

theorem treeGone_of_rest (givenUp : GivenUp mount.sb mount.disk now freed)
    (rest : ∀ e, i ≤ e → (mount.icache slot).di.pointer e = 0)
    (freedAt : FreedAt mount slot (·.root < i) freed) :
    TreeGone mount slot (mount.cutting slot i now) := by
  refine ⟨i, now, freed, rfl, rest, givenUp, fun blockno => ?_⟩
  rw [freedAt]
  refine and_congr_right fun nonzero => exists_congr fun place => ?_
  refine and_iff_right_of_imp fun same => Nat.not_le.mp fun after => nonzero ?_
  rw [← same, Dinode.treeAt_of_root _ (rest _ after)]

/-- A direct pointer has nothing under it. -/
theorem FreedAt.under_direct (direct : i < NDIRECT)
    (freedAt : FreedAt mount slot (·.root < i) freed) : FreedAt mount slot (Under i) freed := by
  intro blockno
  rw [freedAt]
  refine and_congr_right fun _ => exists_congr fun place => and_congr_left fun _ => ?_
  constructor
  · exact .inl
  · rintro (less | ⟨equal, different⟩)
    · exact less
    · exact absurd ((root_eq_iff different).mp equal).1 (Nat.not_le.mpr direct)

theorem FreedAt.cons_pointer (nonzero : (mount.icache slot).di.pointer i ≠ 0)
    (freedAt : FreedAt mount slot (Under i) freed) :
    FreedAt mount slot (·.root < i + 1) ((mount.icache slot).di.pointer i :: freed) := by
  have ownAt := Dinode.treeAt_ofRoot mount.disk (mount.icache slot).di i
  intro blockno
  rw [List.mem_cons, freedAt]
  constructor
  · rintro (rfl | ⟨present, place, under, same⟩)
    · exact ⟨nonzero, .ofRoot i, root_lt_succ_iff.mpr (.inl rfl), ownAt⟩
    · exact ⟨present, place, root_lt_succ_iff.mpr (.inr under), same⟩
  · rintro ⟨present, place, atMost, same⟩
    rcases root_lt_succ_iff.mp atMost with rfl | under
    · exact .inl (same.symm.trans ownAt)
    · exact .inr ⟨present, place, under, same⟩

section
variable (tree : TreeFormed mount.sb mount.disk (mount.icache slot).di)
include tree

theorem TreeFormed.not_freed {given : TreePlace → Prop} (freedAt : FreedAt mount slot given freed)
    (notGiven : ¬ given (.ofRoot i)) : (mount.icache slot).di.pointer i ∉ freed := by
  intro isFreed
  rcases (freedAt _).mp isFreed with ⟨nonzero, place, isGiven, same⟩
  have ownAt := Dinode.treeAt_ofRoot mount.disk (mount.icache slot).di i
  have own := tree.distinct place (.ofRoot i) (same.trans ownAt.symm) (same ▸ nonzero)
  exact notGiven (own ▸ isGiven)

variable (nonzero : (mount.icache slot).di.pointer i ≠ 0)
include nonzero

theorem TreeFormed.pointer_inUse : mount.sb.IsData ((mount.icache slot).di.pointer i) ∧
    marked mount.sb mount.disk ((mount.icache slot).di.pointer i) = true := by
  have inUse := tree.inUse (.ofRoot i)
  rw [Dinode.treeAt_ofRoot] at inUse
  exact inUse nonzero

theorem TreeFormed.unlocked_pointer :
    Unlocked [((mount.icache slot).di.pointer i).toNat] mount.sb.bmap mount.sb.blocks := by
  refine ⟨fun blockno _ below isHeld => ?_, show 1 < NIOBUF by decide⟩
  rw [List.mem_singleton] at isHeld
  have region := (tree.pointer_inUse nonzero).1.1
  omega

/-- The loop over an index block gives up what the block lists. -/
theorem itruncIndexFrom_under (indirect : NDIRECT ≤ i)
    (givenUp : GivenUp mount.sb mount.disk now freed)
    (freedAt : FreedAt mount slot (·.root < i) freed) :
    Yields (itruncIndexFrom (mount.disk ((mount.icache slot).di.pointer i).toNat)
        IDX_CNT_PER_INDIRECT_BLCOK 0)
      { mount.cutting slot i now with held := [((mount.icache slot).di.pointer i).toNat] }
      fun _ final => ∃ next freed', final = { mount.cutting slot i next with
          held := [((mount.icache slot).di.pointer i).toNat] } ∧
        GivenUp mount.sb mount.disk next freed' ∧ FreedAt mount slot (Under i) freed' := by
  have ownAt := Dinode.treeAt_ofRoot mount.disk (mount.icache slot).di i
  have words := fun word => @Dinode.treeAt_word mount.disk (mount.icache slot).di i word
    indirect nonzero
  have atIndex : NDIRECT + (i - NDIRECT) = i := Nat.add_sub_of_le indirect
  have packed := tree.words (i - NDIRECT) (by rwa [atIndex])
  rw [atIndex] at packed
  have notOwn : ∀ word, TreePlace.data
      (NDIRECT + (i - NDIRECT) * IDX_CNT_PER_INDIRECT_BLCOK + word) ≠ .ofRoot i := by
    intro word
    rw [TreePlace.ofRoot, if_neg (Nat.not_lt.mpr indirect)]
    rintro ⟨⟩
  have itsRoot := fun word inBlock =>
    (root_eq_iff (notOwn word)).mpr ⟨indirect, word, inBlock, rfl⟩
  refine (@itruncIndexFrom_yields _ { mount.cutting slot i now with
    held := [((mount.icache slot).di.pointer i).toNat] } mount.disk
    (mount.disk ((mount.icache slot).di.pointer i).toNat) ?_ packed ?_
    (tree.unlocked_pointer nonzero) ?_ IDX_CNT_PER_INDIRECT_BLCOK 0 now freed (Nat.zero_add _)
    givenUp ?_).mono ?_
  · intro word inBlock present
    rw [← words word inBlock] at present ⊢
    exact tree.inUse _ present
  · intro word later inBlock inLater same present
    rw [← words word inBlock, ← words later inLater] at same
    rw [← words word inBlock] at present
    have place := tree.distinct _ _ same present
    rw [TreePlace.data.injEq] at place
    omega
  · intro word inBlock present isHeld
    rw [← words word inBlock] at present isHeld
    rw [List.mem_singleton, UInt32.toNat_inj, ← ownAt] at isHeld
    exact notOwn word (tree.distinct _ _ isHeld present)
  · intro word _ inBlock present isFreed
    rw [← words word inBlock] at present isFreed
    rcases (freedAt _).mp isFreed with ⟨_, place, before, same⟩
    have here := tree.distinct _ _ same (by rwa [same])
    rw [here, itsRoot word inBlock] at before
    exact Nat.lt_irrefl i before
  · rintro _ _ ⟨next, freed', rfl, givenUp', emptied⟩
    refine ⟨next, freed', rfl, givenUp', fun other => ?_⟩
    rw [emptied, freedAt]
    constructor
    · rintro (⟨present, place, before, same⟩ | ⟨present, word, _, inBlock, same⟩)
      · exact ⟨present, place, .inl before, same⟩
      · rw [← words word inBlock] at same
        exact ⟨present, _, .inr ⟨itsRoot word inBlock, notOwn word⟩, same⟩
    · rintro ⟨present, place, before | ⟨equal, different⟩, same⟩
      · exact .inl ⟨present, place, before, same⟩
      · rcases (root_eq_iff different).mp equal with ⟨_, word, inBlock, rfl⟩
        rw [words word inBlock] at same
        exact .inr ⟨present, word, Nat.zero_le _, inBlock, same⟩

/-- The rest of a turn gives up the block of the pointer itself. -/
theorem giveUp_pointer (idle : mount.held = []) (inRange : i < NDIRECT + NINDIRECT)
    (givenUp : GivenUp mount.sb mount.disk now freed)
    (freedAt : FreedAt mount slot (Under i) freed) {block : Block}
    {post : Unit → Mount Task → Prop} (continues : ∀ next freed',
      GivenUp mount.sb mount.disk next freed' → FreedAt mount slot (·.root < i + 1) freed' →
      post () (mount.cutting slot (i + 1) next)) :
    Yields (bzero ⟨((mount.icache slot).di.pointer i).toNat, block⟩)
      { mount.cutting slot i now with held := [((mount.icache slot).di.pointer i).toNat] }
      fun _ cleared =>
        Yields (brelse ⟨((mount.icache slot).di.pointer i).toNat, block⟩) cleared fun _ closed =>
          Yields (bfree ((mount.icache slot).di.pointer i)) closed fun _ released =>
            Yields (setIblock slot i 0) released post := by
  rcases tree.pointer_inUse nonzero with ⟨isData, wasMarked⟩
  have notFreed := tree.not_freed freedAt (not_under_ofRoot i)
  refine @giveUp_yields _ { mount.cutting slot i now with
    held := [((mount.icache slot).di.pointer i).toNat] } _ isData
    ((givenUp.marks _ isData).mpr ⟨wasMarked, notFreed⟩) _ _ rfl (unlocked_nil _ _) _ ?_
  intro next wrote
  rw [yields_setIblock]
  refine ⟨inRange, ?_⟩
  have isState : ({ mount.cutting slot i now with disk := next, held := [] } : Mount Task) =
      mount.cutting slot i next := by
    rw [← idle]
    rfl
  rw [isState, @Mount.cutting_succ _ next mount slot i inRange]
  exact continues next _ (givenUp.cons isData wrote) (freedAt.cons_pointer nonzero)

end

end

section
variable (idle : mount.held = [])
  (tree : TreeFormed mount.sb mount.disk (mount.icache slot).di)
include idle tree

theorem itruncFrom_yields (remaining : Nat) :
    ∀ (i : Nat) (now : Nat → Block) (freed : List UInt32),
      i + remaining = NDIRECT + NINDIRECT → GivenUp mount.sb mount.disk now freed →
      FreedAt mount slot (·.root < i) freed →
      Yields (itruncFrom slot remaining i) (mount.cutting slot i now) fun _ final =>
        TreeGone mount slot final := by
  induction remaining with
  | zero =>
    intro i now freed total givenUp freedAt
    have rest : ∀ e, i ≤ e → (mount.icache slot).di.pointer e = 0 := by
      intro e after
      rw [Dinode.pointer, dif_neg (by omega)]
    rw [itruncFrom, yields_pure]
    exact treeGone_of_rest givenUp rest freedAt
  | succ remaining induction =>
    intro i now freed total givenUp freedAt
    have current : ((mount.cutting slot i now).icache slot).di.pointer i =
        (mount.icache slot).di.pointer i := by
      simp only [Mount.cutting, update_self]
      rw [Dinode.pointer_cutTo, if_neg (Nat.lt_irrefl i)]
    have inRange : i < NDIRECT + NINDIRECT := by omega
    rw [itruncFrom, yields_bind, yields_iblockAt]
    refine ⟨inRange, ?_⟩
    rw [current]
    split
    case isTrue isZero =>
      rw [yields_pure]
      exact treeGone_of_rest givenUp (fun e after => tree.pointers i e after isZero) freedAt
    case isFalse nonzero =>
      have fresh := tree.not_freed freedAt fun before =>
        not_under_ofRoot i (.inl before)
      have content : (mount.cutting slot i now).disk ((mount.icache slot).di.pointer i).toNat =
          mount.disk ((mount.icache slot).di.pointer i).toNat :=
        givenUp.disk_of_not_mem (tree.pointer_inUse nonzero).1 fresh
      have notHeld : (mount.cutting slot i now).held = [] := idle
      rw [yields_bind, yields_bread, notHeld, content]
      refine ⟨List.not_mem_nil, by decide, ?_⟩
      split
      case isTrue indirect =>
        simp only [yields_bind]
        refine (itruncIndexFrom_under tree nonzero indirect givenUp freedAt).mono ?_
        rintro _ _ ⟨next, freed', rfl, givenUp', freedAt'⟩
        exact giveUp_pointer tree nonzero idle inRange givenUp' freedAt' fun next freed' =>
          induction (i + 1) next freed' (by omega)
      case isFalse direct =>
        simp only [yields_bind]
        exact giveUp_pointer tree nonzero idle inRange givenUp
          (freedAt.under_direct (Nat.not_le.mp direct)) fun next freed' =>
          induction (i + 1) next freed' (by omega)

/-- `itrunc` of an inode with a well-formed tree returns. The inode is empty then, exactly
the blocks of the tree are free and clear, and nothing else is changed. -/
theorem itrunc_releases : Yields (itrunc slot) mount fun _ final => ∃ disk,
    final = { mount with
      disk := disk
      icache := update mount.icache slot { mount.icache slot with
        di := { (mount.icache slot).di with fsize := 0, iblock := fun _ => 0 } } } ∧
    (∀ blockno, (mount.icache slot).di.InTree mount.disk blockno → disk blockno.toNat = 0) ∧
    (∀ blockno, mount.sb.IsData blockno → (marked mount.sb disk blockno = true ↔
      marked mount.sb mount.disk blockno = true ∧
        ¬ (mount.icache slot).di.InTree mount.disk blockno)) ∧
    ∀ n, ¬ (mount.sb.bmap ≤ n ∧ n < mount.sb.blocks) →
      (∀ blockno, (mount.icache slot).di.InTree mount.disk blockno → n ≠ blockno.toNat) →
      disk n = mount.disk n := by
  simp only [itrunc, yields_bind, yields_getInode, yields_setDi]
  refine (show Yields (itruncFrom slot _ 0) (mount.cutting slot 0 mount.disk) _ from
    itruncFrom_yields idle tree _ 0 mount.disk [] (Nat.zero_add _)
    (givenUp_nil _ _) ?_).mono ?_
  · intro blockno
    simp only [List.not_mem_nil, Nat.not_lt_zero, false_and, exists_false, and_false]
  · rintro _ _ ⟨last, disk, freed, rfl, rest, givenUp, members⟩
    refine ⟨disk, by rw [Mount.cutting, Dinode.cutTo_eq _ rest], ?_, ?_, ?_⟩
    · exact fun blockno inTree => givenUp.cleared blockno ((members blockno).mpr inTree)
    · intro blockno isData
      rw [givenUp.marks blockno isData, members]
    · exact fun n notMap apart => givenUp.elsewhere n notMap fun blockno isFreed =>
        apart blockno ((members blockno).mp isFreed)

end

/-- Twelve direct blocks, an index block and the block that it lists, all in use. -/
def thirteenInUse : Mount Unit :=
  { thirteenBlocks with
    disk := update thirteenBlocks.disk 700 (BitVec.ofNat 8192 (2 ^ 14 - 1)) }

theorem pointer_thirteenInUse (i : Nat) :
    (thirteenInUse.icache 0).di.pointer i = if i ≤ 12 then UInt32.ofNat (701 + i) else 0 := by
  rw [Dinode.pointer]
  split
  case isTrue => rfl
  case isFalse beyond => rw [if_neg (by simp only [NDIRECT, NINDIRECT] at beyond; omega)]

theorem index_thirteenInUse (word : Nat) :
    (thirteenInUse.disk 713).u32 word = if word = 0 then 714 else 0 := by
  have listed := @Block.u32_setU32 0 0 714 (by decide) word
  exact listed.trans (if_congr Iff.rfl rfl (Block.u32_zero word))

/-- The blocks of the tree are the fourteen from 701 on. -/
theorem treeAt_thirteenInUse {place : TreePlace}
    (nonzero : (thirteenInUse.icache 0).di.treeAt thirteenInUse.disk place ≠ 0) :
    ∃ n < 14, (thirteenInUse.icache 0).di.treeAt thirteenInUse.disk place = UInt32.ofNat (701 + n) ∧
      place = if n < 12 then .data n else if n = 12 then .index 0 else .data 12 := by
  have noRoot : place.root ≤ 12 := by
    by_contra beyond
    exact nonzero (Dinode.treeAt_of_root _ (by rw [pointer_thirteenInUse, if_neg beyond]))
  by_cases own : place = .ofRoot place.root
  · refine ⟨place.root, by omega, ?_, ?_⟩
    · rw [own, Dinode.treeAt_ofRoot, root_ofRoot, pointer_thirteenInUse, if_pos noRoot]
    · have places : ∀ i < 13, ofRoot i =
        if i < 12 then .data i else if i = 12 then .index 0 else .data 12 := by decide
      exact own.trans (places _ (Nat.lt_succ_of_le noRoot))
  · rcases (root_eq_iff own).mp rfl with ⟨indirect, word, inBlock, isPlace⟩
    have isRoot : place.root = 12 := Nat.le_antisymm noRoot indirect
    rw [isRoot] at isPlace
    have value := @Dinode.treeAt_word thirteenInUse.disk (thirteenInUse.icache 0).di 12 word
      (by decide) (by decide) inBlock
    have listed : (thirteenInUse.icache 0).di.treeAt thirteenInUse.disk place =
        if word = 0 then 714 else 0 := by
      rw [isPlace, value]
      exact index_thirteenInUse word
    by_cases first : word = 0
    · subst first
      exact ⟨13, by decide, listed, isPlace⟩
    · rw [listed, if_neg first] at nonzero
      exact absurd rfl nonzero

theorem treeFormed_thirteenInUse :
    TreeFormed thirteenInUse.sb thirteenInUse.disk (thirteenInUse.icache 0).di where
  pointers := by
    intro i later before isZero
    rw [pointer_thirteenInUse] at isZero ⊢
    split at isZero
    case isTrue few =>
      have present : ∀ i < 13, UInt32.ofNat (701 + i) ≠ 0 := by decide
      exact absurd isZero (present i (Nat.lt_succ_of_le few))
    case isFalse many => rw [if_neg (by omega)]
  words := by
    intro j nonzero word later before inBlock isZero
    have isFirst : j = 0 := by
      by_contra other
      rw [pointer_thirteenInUse, if_neg (by simp only [NDIRECT]; omega)] at nonzero
      exact nonzero rfl
    subst isFirst
    have atWord : (thirteenInUse.disk 713).u32 word = 0 := isZero
    show (thirteenInUse.disk 713).u32 later = 0
    rw [index_thirteenInUse] at atWord ⊢
    split at atWord
    case isTrue => cases atWord
    case isFalse notFirst => rw [if_neg (by omega)]
  inUse := by
    have all : ∀ n < 14, thirteenInUse.sb.IsData (UInt32.ofNat (701 + n)) ∧
        marked thirteenInUse.sb thirteenInUse.disk (UInt32.ofNat (701 + n)) = true := by
      decide +kernel
    intro place nonzero
    rcases treeAt_thirteenInUse nonzero with ⟨n, few, value, _⟩
    rw [value]
    exact all n few
  distinct := by
    intro place other same nonzero
    rcases treeAt_thirteenInUse nonzero with ⟨n, few, value, isPlace⟩
    rcases treeAt_thirteenInUse (same ▸ nonzero) with ⟨m, fewer, otherValue, isOther⟩
    have numbers : UInt32.ofNat (701 + n) = UInt32.ofNat (701 + m) :=
      value.symm.trans (same.trans otherValue)
    have injective : ∀ n < 14, ∀ m < 14, UInt32.ofNat (701 + n) = UInt32.ofNat (701 + m) →
      n = m := by decide
    have equal := injective n few m fewer numbers
    rw [isPlace, isOther, equal]

/-- The index block and the block that it lists are cleared and free. -/
theorem itrunc_releases_thirteenInUse : Yields (itrunc 0) thirteenInUse fun _ final =>
    (final.disk 713 = 0 ∧ marked final.sb final.disk 713 = false) ∧
      final.disk 714 = 0 ∧ marked final.sb final.disk 714 = false := by
  refine (itrunc_releases rfl treeFormed_thirteenInUse).mono ?_
  rintro _ _ ⟨disk, rfl, cleared, marks, _⟩
  have gone : ∀ blockno, thirteenInUse.sb.IsData blockno →
      (thirteenInUse.icache 0).di.InTree thirteenInUse.disk blockno →
      disk blockno.toNat = 0 ∧ marked thirteenInUse.sb disk blockno = false := by
    intro blockno isData inTree
    refine ⟨cleared blockno inTree, ?_⟩
    by_contra isMarked
    exact ((marks blockno isData).mp (Bool.eq_true_of_not_eq_false isMarked)).2 inTree
  exact ⟨gone 713 (by decide) ⟨by decide, .index 0, rfl⟩,
    gone 714 (by decide) ⟨by decide, .data 12, by decide +kernel⟩⟩

end Tnix.Fs
