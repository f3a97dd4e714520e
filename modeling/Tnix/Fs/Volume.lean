import Tnix.Fs.Dir

/-! # What is on the disk

The two allocation maps, the dinodes and the data blocks that the blocks of a disk
stand for, and the directories in them. -/

namespace Tnix.Fs

open Function

@[ext] structure Volume where
  imap : UInt32 → Bool
  bmap : UInt32 → Bool
  ino : UInt32 → Dinode
  data : UInt32 → Block

namespace Volume

/-! ## Changes -/

def setBmap (volume : Volume) (blockno : UInt32) (value : Bool) : Volume :=
  { volume with bmap := update volume.bmap blockno value }

def setData (volume : Volume) (blockno : UInt32) (block : Block) : Volume :=
  { volume with data := update volume.data blockno block }

section
variable (volume : Volume) (number : UInt32) (value : Bool) (block : Block)

@[simp] theorem setBmap_bmap :
    (volume.setBmap number value).bmap = update volume.bmap number value := rfl
@[simp] theorem setData_data :
    (volume.setData number block).data = update volume.data number block := rfl

end
end Volume

namespace Superblock

def inodeCount (sb : Superblock) : Nat := (sb.inodes - sb.imap) * BIT_CNT_PER_BLOCK

def IsData (sb : Superblock) (blockno : UInt32) : Prop :=
  sb.blocks ≤ blockno.toNat ∧
    blockno.toNat < sb.blocks + (sb.blocks - sb.bmap) * BIT_CNT_PER_BLOCK

instance (sb : Superblock) (blockno : UInt32) : Decidable (sb.IsData blockno) :=
  inferInstanceAs (Decidable (_ ∧ _))

/-- The order of the regions of the disk. There is a dinode for every bit of the inode
map, and inode and block numbers are `u32`. -/
structure Geometry (sb : Superblock) : Prop where
  imap_pos : 0 < sb.imap
  imap_le : sb.imap ≤ sb.inodes
  inodes_le : sb.inodes ≤ sb.bmap
  bmap_le : sb.bmap ≤ sb.blocks
  table : sb.inodeCount ≤ (sb.bmap - sb.inodes) * DINODE_CNT_PER_BLOCK
  inodes_fit : sb.inodeCount ≤ 2 ^ 32
  blocks_fit : sb.blocks + (sb.blocks - sb.bmap) * BIT_CNT_PER_BLOCK ≤ 2 ^ 32

def bmapBits (sb : Superblock) : Nat := (sb.blocks - sb.bmap) * BIT_CNT_PER_BLOCK

/-- The block map lies before the data blocks, and every block that a bit stands for has
a number. -/
structure Numbered (sb : Superblock) : Prop where
  ordered : sb.bmap ≤ sb.blocks
  fits : sb.blocks + sb.bmapBits ≤ 2 ^ 32

theorem Geometry.ne_zero {sb : Superblock} (geometry : sb.Geometry) {blockno : UInt32}
    (isData : sb.IsData blockno) : blockno ≠ 0 := by
  rintro rfl
  have positive := geometry.imap_pos
  have first := geometry.imap_le
  have second := geometry.inodes_le
  have third := geometry.bmap_le
  have region := isData.1
  rw [UInt32.toNat_zero] at region
  omega

theorem Geometry.numbered {sb : Superblock} (geometry : sb.Geometry) : sb.Numbered :=
  ⟨geometry.bmap_le, geometry.blocks_fit⟩

end Superblock

def Dinode.blank : Dinode := ⟨.UNUSE, 0, 0, 0, fun _ => 0⟩

def Dinode.pointer (di : Dinode) (i : Nat) : UInt32 :=
  if inRange : i < NDIRECT + NINDIRECT then di.iblock ⟨i, inRange⟩ else 0

def Dinode.setPointer (di : Dinode) (i : Nat) (blockno : UInt32) : Dinode :=
  if inRange : i < NDIRECT + NINDIRECT then
    { di with iblock := update di.iblock ⟨i, inRange⟩ blockno }
  else di

theorem Dinode.pointer_setPointer (di : Dinode) {i : Nat} (inRange : i < NDIRECT + NINDIRECT)
    (blockno : UInt32) (other : Nat) :
    (di.setPointer i blockno).pointer other = if other = i then blockno else di.pointer other := by
  rw [setPointer, dif_pos inRange, pointer, pointer]
  by_cases same : other = i
  · subst same
    rw [dif_pos inRange, if_pos rfl]
    exact update_self _ _ _
  · rw [if_neg same]
    split
    case isTrue otherInRange =>
      have different : (⟨other, otherInRange⟩ : Fin (NDIRECT + NINDIRECT)) ≠ ⟨i, inRange⟩ :=
        fun equal => same (Fin.mk.inj equal)
      exact update_of_ne different _ _
    case isFalse => rfl

def Mount.volume {Task : Type} (mount : Mount Task) : Volume where
  imap inum := decide (inum.toNat < mount.sb.inodeCount) &&
    (mount.disk (mount.sb.imap + inum.toNat / BIT_CNT_PER_BLOCK)).getLsbD
      (inum.toNat % BIT_CNT_PER_BLOCK)
  bmap blockno := decide (mount.sb.IsData blockno) &&
    (mount.disk (mount.sb.bmap + (blockno.toNat - mount.sb.blocks) / BIT_CNT_PER_BLOCK)).getLsbD
      ((blockno.toNat - mount.sb.blocks) % BIT_CNT_PER_BLOCK)
  ino inum :=
    if inum.toNat < mount.sb.inodeCount then
      (mount.disk (mount.sb.inodes + inum.toNat / DINODE_CNT_PER_BLOCK)).dinode
        (inum.toNat % DINODE_CNT_PER_BLOCK)
    else Dinode.blank
  data blockno := if mount.sb.IsData blockno then mount.disk blockno.toNat else 0

/-- A place in the block tree of an inode. -/
inductive TreePlace
  | data (k : Nat)
  | index (j : Nat)
  deriving DecidableEq

/-- The slots whose name is not empty are as many as the count says. -/
def Block.Counted (block : Block) : Prop :=
  block.cnt.toNat = (List.range' 1 Block.dentryMax).countP block.live

instance (block : Block) : Decidable block.Counted := inferInstanceAs (Decidable (_ = _))

namespace Volume

/-! ## Block trees -/

def indexAt (volume : Volume) (inum : UInt32) (j : Nat) : UInt32 :=
  (volume.ino inum).pointer (NDIRECT + j)

def block (volume : Volume) (inum : UInt32) (k : Nat) : UInt32 :=
  if k < NDIRECT then (volume.ino inum).pointer k
  else (volume.data (volume.indexAt inum ((k - NDIRECT) / IDX_CNT_PER_INDIRECT_BLCOK))).u32
    ((k - NDIRECT) % IDX_CNT_PER_INDIRECT_BLCOK)

/-! ## Directories -/

def IsDir (volume : Volume) (inum : UInt32) : Prop :=
  volume.imap inum = true ∧ (volume.ino inum).type = .DIRECTORY

instance (volume : Volume) (inum : UInt32) : Decidable (volume.IsDir inum) :=
  inferInstanceAs (Decidable (_ ∧ _))

def blockCount (volume : Volume) (inum : UInt32) : Nat := (iblockCnt (volume.ino inum)).toNat

def content (volume : Volume) (inum : UInt32) (k : Nat) : Block :=
  volume.data (volume.block inum k)

def entry (volume : Volume) (dir : UInt32) (place : Nat × Nat) :
    Option (List UInt8 × UInt32) :=
  if volume.IsDir dir ∧ place.1 < volume.blockCount dir ∧ 1 ≤ place.2 ∧
      place.2 ≤ Block.dentryMax ∧ (volume.content dir place.1).live place.2 = true then
    some ((volume.content dir place.1).name place.2,
      (volume.content dir place.1).dentryInum place.2)
  else none

def lookup (volume : Volume) (dir : UInt32) (name : List UInt8) : Option UInt32 :=
  (List.range (volume.blockCount dir)).findSome? fun k =>
    (findEntry (volume.content dir k) name).map (volume.content dir k).dentryInum

def walk (volume : Volume) : UInt32 → List (List UInt8) → Option UInt32
  | inum, [] => some inum
  | inum, name :: rest => (volume.lookup inum name).bind fun found => volume.walk found rest

end Volume
end Tnix.Fs
