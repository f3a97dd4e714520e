import Tnix.Fs.BlockAllocation
import Tnix.Fs.InodeNumbers
import Tnix.Fs.Lookup
import Tnix.Mkfs.Alloc

/-! # The image of `mkfs.cc` in the kernel

The functions of the kernel find at their positions what `mkfs` has written. -/

namespace Tnix.Mkfs

open Function Program Tnix.Fs

/-! ## The image -/

def blockAt (bytes : Nat → BitVec 8) (start : Nat) : Block :=
  Block.setBytes 0 0 ((List.range BSIZE).map fun i => ⟨bytes (start + i)⟩)

/-- `lseek` to a block and `write` of whole blocks. -/
def writeAt (disk : Nat → Block) (blockno size : Nat) (bytes : Nat → BitVec 8) : Nat → Block :=
  fun other => if blockno ≤ other ∧ other < blockno + size / BSIZE
    then blockAt bytes ((other - blockno) * BSIZE) else disk other

/-- `dinode_bitmap_write`, `dinodes_write` and `block_bitmap_write`. -/
def Image.write (image : Image) (dinodes : Nat → BitVec 8) (disk : Nat → Block) : Nat → Block :=
  let disk := writeAt disk IMAP_START_BLOCKNO IMAP_SIZE image.imap
  let disk := writeAt disk DINODES_START_BLOCKNO DINODES_SIZE dinodes
  writeAt disk BMAP_START_BLOCKNO BMAP_SIZE image.bmap

variable {Task : Type}

variable {image : Image} {dinodes bytes : Nat → BitVec 8} {disk : Nat → Block}
  {mount : Mount Task} {blockno size : Nat}

end Tnix.Mkfs
