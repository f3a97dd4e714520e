import Mathlib.Data.List.ProdSigma
import Tnix.Foundation.Occupied
import Tnix.Fs.DirBlock
import Tnix.Fs.IndexRemoval

/-! # A directory in the inode cache

The live entries of a directory whose inode is cached, and when such a directory is well
formed. Nothing is said about the other inodes. -/

namespace Tnix.Fs

open Function Program

def Block.entry (data : Block) (j : Nat) : Option (List UInt8 × UInt32) :=
  if data.live j then some (data.name j, data.dentryInum j) else none

theorem Block.entry_of_live {data : Block} {j : Nat} (isLive : data.live j = true) :
    data.entry j = some (data.name j, data.dentryInum j) := if_pos isLive

theorem Block.entry_eq_none {data : Block} {j : Nat} (dead : data.live j = false) :
    data.entry j = none := by
  rw [entry, dead, if_neg Bool.false_ne_true]

/-- The slots of a directory of `n` blocks, in the order of the scans. -/
def dentryPlaces (n : Nat) : List (Nat × Nat) :=
  List.range n ×ˢ List.range' 1 Block.dentryMax

theorem mem_dentryPlaces {n : Nat} {place : Nat × Nat} :
    place ∈ dentryPlaces n ↔ place.1 < n ∧ Block.Slot place.2 := by
  rw [dentryPlaces, show place = (place.1, place.2) from rfl, List.mem_product, List.mem_range,
    Block.Slot.mem_range]

theorem nodup_dentryPlaces (n : Nat) : (dentryPlaces n).Nodup :=
  List.nodup_range.product List.nodup_range'

theorem dentryPlaces_succ (n : Nat) :
    dentryPlaces (n + 1) = dentryPlaces n ++ (List.range' 1 Block.dentryMax).map (n, ·) := by
  rw [dentryPlaces, List.range_succ]
  simp [SProd.sprod, List.product, dentryPlaces]

section
variable {Task : Type}

def Mount.content (mount : Mount Task) (slot : Fin NINODE) (k : Nat) : Block :=
  mount.disk (mount.listAt slot k).toNat

def Mount.dentry (mount : Mount Task) (slot : Fin NINODE) (place : Nat × Nat) :
    Option (List UInt8 × UInt32) :=
  (mount.content slot place.1).entry place.2

def Mount.entries (mount : Mount Task) (slot : Fin NINODE) (n : Nat) :
    List (List UInt8 × UInt32) :=
  Occupied.values (dentryPlaces n) (mount.dentry slot)

/-- A directory of `n` blocks: its blocks are in use, their counts are right, and blocks
that are not in use are clear. -/
structure DirFormed (mount : Mount Task) (slot : Fin NINODE) (n : Nat) : Prop where
  list : ListFormed mount slot n
  tail : ∀ k, n ≤ k → mount.listAt slot k = 0
  inUse : ∀ k < n, mount.sb.IsData (mount.listAt slot k) ∧
    marked mount.sb mount.disk (mount.listAt slot k) = true
  indexInUse : ∀ j, NDIRECT + j * IDX_CNT_PER_INDIRECT_BLCOK < n →
    mount.sb.IsData ((mount.icache slot).di.pointer (NDIRECT + j)) ∧
      marked mount.sb mount.disk ((mount.icache slot).di.pointer (NDIRECT + j)) = true
  counted : ∀ k < n, (mount.content slot k).Counted
  clear : ∀ blockno, mount.sb.IsData blockno → marked mount.sb mount.disk blockno = false →
    mount.disk blockno.toNat = 0

/-- No buffer is locked, and the cached inode has a dinode on the disk. -/
structure Settled (mount : Mount Task) (slot : Fin NINODE) : Prop where
  geometry : mount.sb.Geometry
  idle : mount.held = []
  inRange : (mount.icache slot).inum.toNat < mount.sb.inodeCount

end

variable {Task : Type} {mount : Mount Task} {slot : Fin NINODE} {n k : Nat}

theorem Settled.address_lt (settled : Settled mount slot) :
    mount.sb.inodes + (mount.icache slot).inum.toNat / DINODE_CNT_PER_BLOCK < mount.sb.bmap := by
  have table := settled.geometry.table
  have ordered := settled.geometry.inodes_le
  have inRange := settled.inRange
  simp only [DINODE_CNT_PER_BLOCK, BSIZE] at table ⊢
  omega

/-! ## Reading a block -/

theorem ListFormed.blockAt_eq (formed : ListFormed mount slot n) (inDir : k < n) :
    mount.blockAt slot k = mount.listAt slot k := by
  rw [Mount.listAt, Dinode.treeAt, if_neg, Mount.blockAt]
  rintro ⟨indirect, isZero⟩
  refine (formed.index _).mpr ?_ isZero
  have := Nat.div_mul_le_self (k - NDIRECT) IDX_CNT_PER_INDIRECT_BLCOK
  omega

theorem ListFormed.dataBlockGet_eq (formed : ListFormed mount slot n) (idle : mount.held = [])
    (inDir : k < n) :
    dataBlockGet slot k mount = .ok (⟨(mount.listAt slot k).toNat, mount.content slot k⟩,
      { mount with held := [(mount.listAt slot k).toNat] }) := by
  rcases @dataBlockGet_yields _ mount slot idle k
    (Nat.lt_of_lt_of_le inDir formed.le_maxBlocks) with ⟨_, _, ran, rfl, rfl⟩
  rw [ran, formed.blockAt_eq inDir]
  rfl

/-! ## Writing a block -/

section
variable (formed : DirFormed mount slot n) (inDir : k < n) (block : Block)

def Mount.withContent (mount : Mount Task) (slot : Fin NINODE) (k : Nat) (block : Block) :
    Mount Task :=
  { mount with disk := update mount.disk (mount.listAt slot k).toNat block }

namespace DirFormed

include formed

theorem index_ne (inDir : k < n) (j : Nat) :
    ((mount.icache slot).di.pointer (NDIRECT + j)).toNat ≠ (mount.listAt slot k).toNat :=
  fun same => formed.list.notIndex j (UInt32.toNat_inj.mp same ▸ formed.list.listAt_mem inDir)

theorem listAt_inj {i : Nat} (inDir : k < n) (other : i < n)
    (same : mount.listAt slot i = mount.listAt slot k) : i = k := by
  have length := formed.list.length
  have first := @Terminated.getElem?_read _ (· = 0) _ maxBlocks (mount.listAt slot) i
    (by rw [← Mount.blockList, length]; exact other)
  have second := @Terminated.getElem?_read _ (· = 0) _ maxBlocks (mount.listAt slot) k
    (by rw [← Mount.blockList, length]; exact inDir)
  rw [← Mount.blockList] at first second
  exact (List.getElem?_inj (by rw [length]; exact other) formed.list.distinct).mp
    (first.trans ((congrArg some same).trans second.symm))

include inDir

theorem listAt_withContent (i : Nat) :
    (mount.withContent slot k block).listAt slot i = mount.listAt slot i :=
  Mount.listAt_congr rfl fun _ => update_of_ne (formed.index_ne inDir _) _ _

theorem content_withContent {i : Nat} (other : i < n) :
    (mount.withContent slot k block).content slot i =
      if i = k then block else mount.content slot i := by
  rw [Mount.content, formed.listAt_withContent inDir]
  by_cases same : i = k
  · subst same
    rw [if_pos rfl]
    exact update_self _ _ _
  · rw [if_neg same]
    refine update_of_ne (fun equal => same ?_) _ _
    exact formed.listAt_inj inDir other (UInt32.toNat_inj.mp equal)

theorem marked_withContent {blockno : UInt32} (isData : mount.sb.IsData blockno) :
    marked mount.sb (mount.withContent slot k block).disk blockno =
      marked mount.sb mount.disk blockno := by
  have region := (formed.inUse k inDir).1.1
  have mark := isData.mark_lt
  simp only [marked, mapBit, Mount.withContent]
  rw [update_of_ne (by omega)]

theorem list_withContent : ListFormed (mount.withContent slot k block) slot n := by
  have same : (mount.withContent slot k block).listAt slot = mount.listAt slot :=
    funext (formed.listAt_withContent inDir block)
  have sameList : (mount.withContent slot k block).blockList slot = mount.blockList slot := by
    rw [Mount.blockList, same, ← Mount.blockList]
  have list := formed.list
  refine ⟨list.size, ?_, list.index, ?_, ?_, list.indexDistinct⟩
  · rw [sameList, list.length]
  · rw [sameList]
    exact list.distinct
  · rw [sameList]
    exact list.notIndex

theorem withContent (counted : block.Counted) :
    DirFormed (mount.withContent slot k block) slot n := by
  refine ⟨formed.list_withContent inDir block, ?_, ?_, ?_, ?_, ?_⟩
  · intro i outside
    rw [formed.listAt_withContent inDir, formed.tail i outside]
  · intro i inside
    rw [formed.listAt_withContent inDir]
    exact ⟨(formed.inUse i inside).1,
      (formed.marked_withContent inDir block (formed.inUse i inside).1).trans
        (formed.inUse i inside).2⟩
  · intro j needed
    have index := formed.indexInUse j needed
    exact ⟨index.1, (formed.marked_withContent inDir block index.1).trans index.2⟩
  · intro i inside
    rw [formed.content_withContent inDir block inside]
    split
    case isTrue => exact counted
    case isFalse => exact formed.counted i inside
  · intro blockno isData isFree
    have wasFree := (formed.marked_withContent inDir block isData).symm.trans isFree
    have different : blockno.toNat ≠ (mount.listAt slot k).toNat := by
      intro same
      rw [UInt32.toNat_inj.mp same, (formed.inUse k inDir).2] at wasFree
      cases wasFree
    exact (update_of_ne different _ _).trans (formed.clear blockno isData wasFree)

theorem dentry_withContent {place : Nat × Nat} (isPlace : place ∈ dentryPlaces n) :
    (mount.withContent slot k block).dentry slot place =
      if place.1 = k then block.entry place.2 else mount.dentry slot place := by
  rw [Mount.dentry, formed.content_withContent inDir block (mem_dentryPlaces.mp isPlace).1]
  split
  · rfl
  · rfl

end DirFormed
end

/-! ## A small directory -/

def smallDir (map data : Block) : Mount Unit :=
  { manyBlocks 1 with
    disk := fun blockno => if blockno = 701 then data else if blockno = 700 then map else 0 }

theorem listAt_smallDir (map data : Block) (k : Nat) :
    (smallDir map data).listAt 0 k = if k = 0 then 701 else 0 := by
  by_cases direct : k < NDIRECT
  · rw [Mount.listAt_direct _ 0 direct, Dinode.pointer, dif_pos (Nat.lt_add_right _ direct)]
    simp only [smallDir, manyBlocks]
    by_cases first : k = 0
    · subst first
      rfl
    · rw [if_neg (by omega), if_neg (by omega), if_neg first]
  · have later : k ≠ 0 := by
      rintro rfl
      exact direct (by decide)
    rw [Mount.listAt, if_neg later]
    apply Dinode.treeAt_of_root
    rw [TreePlace.root, if_neg direct]
    exact (pointer_manyBlocks 1 _).trans (if_neg fun both => absurd both.2 (by decide))

theorem blockList_smallDir (map data : Block) : (smallDir map data).blockList 0 = [701] := by
  rw [Mount.blockList, Terminated.read_eq_iff]
  refine ⟨by decide, ?_, ?_, ?_⟩
  · intro k
    rw [listAt_smallDir]
    cases k with
    | zero => rfl
    | succ k => rfl
  · intro k inList
    obtain rfl : k = 0 := Nat.lt_one_iff.mp inList
    rw [listAt_smallDir]
    decide
  · intro _
    rw [listAt_smallDir]
    rfl

theorem content_smallDir (map data : Block) : (smallDir map data).content 0 0 = data := by
  rw [Mount.content, listAt_smallDir]
  rfl

theorem settled_smallDir (map data : Block) : Settled (smallDir map data) 0 :=
  ⟨geometry_thirteenBlocks, rfl, show (1 : UInt32).toNat < Superblock.inodeCount ⟨2, 3, 700, 701⟩ by
    decide⟩

theorem dirFormed_smallDir {map data : Block} (bit : map.getLsbD 0 = true)
    (counted : data.Counted) : DirFormed (smallDir map data) 0 1 := by
  have pointer : ∀ j, ((smallDir map data).icache 0).di.pointer (NDIRECT + j) = 0 := fun j =>
    (pointer_manyBlocks 1 j).trans (if_neg fun both => absurd both.2 (by decide))
  have noIndex : ∀ j, ¬ NDIRECT + j * IDX_CNT_PER_INDIRECT_BLCOK < 1 := by
    intro j
    simp only [NDIRECT]
    omega
  have isMarked : marked (smallDir map data).sb (smallDir map data).disk 701 = true := by
    have first : ∀ disk, marked ⟨2, 3, 700, 701⟩ disk 701 = (disk 700).getLsbD 0 := fun _ => rfl
    exact (first _).trans bit
  constructor
  · refine ⟨rfl, ?_, fun j => ?_, ?_, fun j => ?_, fun j _ _ nonzero => absurd (pointer j) nonzero⟩
    · rw [blockList_smallDir]
      rfl
    · exact iff_of_false (fun nonzero => nonzero (pointer j)) (noIndex j)
    · rw [blockList_smallDir]
      exact List.nodup_singleton _
    · rw [pointer, blockList_smallDir]
      decide
  · intro k outside
    rw [listAt_smallDir, if_neg (by omega)]
  · intro k inside
    obtain rfl : k = 0 := Nat.lt_one_iff.mp inside
    rw [listAt_smallDir, if_pos rfl]
    exact ⟨show Superblock.IsData ⟨2, 3, 700, 701⟩ 701 by decide, isMarked⟩
  · exact fun j needed => absurd needed (noIndex j)
  · intro k inside
    obtain rfl : k = 0 := Nat.lt_one_iff.mp inside
    rwa [content_smallDir]
  · intro blockno isData isFree
    have region : 701 ≤ blockno.toNat := isData.1
    have different : blockno.toNat ≠ 701 := by
      intro same
      have isBlock : blockno = 701 := UInt32.toNat_inj.mp same
      rw [isBlock, isMarked] at isFree
      cases isFree
    exact (if_neg different).trans (if_neg (by omega))

end Tnix.Fs
