import Tnix.Foundation.Program
import Tnix.Fs.Icache
import Tnix.Fs.Pipe

/-! # The mounted file system

The state that the system calls on files change when they do not overlap, and `bio.c` and `fs.c`
on it, without the block cache: `brelse` of a buffer that was changed and not written drops the
change. `held` lists the blocks whose sleep lock the task has. -/

namespace Tnix.Fs

/-- What ends a call without a return. -/
inductive Fault
  | panic (message : String)
  /-- A pointer is dereferenced that is `NULL` or does not point to what it is taken for. -/
  | null
  /-- An array is accessed out of its bounds. -/
  | bounds
  /-- The call sleeps, and no other call runs that could wake it. -/
  | sleeps
  deriving DecidableEq, Repr

inductive FileType
  | NONE
  | PIPE
  | INODE
  | DEVICE
  deriving DecidableEq, Repr

/-- The union of `inode` and `pipe` in `struct file`. -/
inductive FilePointer
  | null
  | inode (slot : Fin NINODE)
  | pipe (p : Fin NPIPE)
  deriving DecidableEq

/-- `struct file`. -/
structure File where
  mode : Nat
  type : FileType
  refc : UInt32
  off : UInt32
  pointer : FilePointer

/-- `struct chunk_file_slot`. An object that is not in use keeps what was in it. -/
structure FileChunk where
  obj : File
  inuse : Bool

def FileChunk.zero : FileChunk := ⟨⟨0, .NONE, 0, 0, .null⟩, false⟩

/-- An entry of `pipecache`; the counter is an `i8`. -/
structure PipeEntry where
  pipe : Pipe
  refc : Int8

/-- `struct fs_struct`. -/
structure FsStruct where
  cwd : Fin NINODE
  files : Fin NFILE → Option (Fin FILE_CNT)
  fdx : Nat

/-- A task that has no `fs_struct` has not been forked yet or has ended. `devsw` are the
valid devices. The only superblock is `rfs`. -/
structure Mount (Task : Type) where
  sb : Superblock
  disk : Nat → Block
  icache : Fin NINODE → Inode Unit
  tasks : Task → Option FsStruct
  files : Fin FILE_CNT → FileChunk
  pipes : Fin NPIPE → PipeEntry
  devsw : Fin NDEV → Bool
  held : List Nat

abbrev FsM (Task : Type) := Program (Mount Task) Fault

structure IoBuf where
  blockno : Nat
  data : Block

variable {Task : Type}

def getFsStruct (task : Task) : FsM Task FsStruct := do
  let mount ← get
  match mount.tasks task with
  | some fsStruct => return fsStruct
  | none => throw .null

def setFsStruct [DecidableEq Task] (task : Task) (fsStruct : Option FsStruct) : FsM Task Unit :=
  modify fun mount => { mount with tasks := Function.update mount.tasks task fsStruct }

/-! ## `bio.c` -/

def bread (blockno : Nat) : FsM Task IoBuf := fun mount =>
  if blockno ∈ mount.held then .error (.panic "sleep_get")
  else if NIOBUF ≤ mount.held.length then .error (.panic "bget: bcache exhausted")
  else .ok (⟨blockno, mount.disk blockno⟩, { mount with held := blockno :: mount.held })

def bwrite (b : IoBuf) : FsM Task Unit := fun mount =>
  if b.blockno ∈ mount.held then
    .ok ((), { mount with disk := Function.update mount.disk b.blockno b.data })
  else .error (.panic "bwrite: not holding lock")

def bzero (b : IoBuf) : FsM Task Unit := bwrite { b with data := 0 }

def brelse (b : IoBuf) : FsM Task Unit := fun mount =>
  if b.blockno ∈ mount.held then .ok ((), { mount with held := mount.held.erase b.blockno })
  else .error (.panic "brelse: not holding lock")

/-! ## `fs.c` -/

def readNthImap (n : Nat) : FsM Task IoBuf := do
  let mount ← get
  if mount.sb.inodes - mount.sb.imap ≤ n then throw (.panic "read_nth_imap: out of range")
  else bread (n + mount.sb.imap)

def readNthBmap (n : Nat) : FsM Task IoBuf := do
  let mount ← get
  if mount.sb.blocks - mount.sb.bmap ≤ n then throw (.panic "read_nth_bmap: out of range")
  else bread (n + mount.sb.bmap)

/-- The loop of `balloc` and `ialloc` over the blocks of a map: sets the first clear
bit and returns its block, section and bit. -/
def mapAllocFrom (readNth : Nat → FsM Task IoBuf) (exhausted : String) :
    Nat → Nat → FsM Task (Nat × Nat × Nat)
  | 0, _ => throw (.panic exhausted)
  | remaining + 1, i => do
    let b ← readNth i
    match b.data.openSection with
    | none => do
      brelse b
      mapAllocFrom readNth exhausted remaining (i + 1)
    | some j =>
      match openBit (b.data.u64 j) with
      | some k => do
        let b := { b with data := b.data.setU64 j (b.data.u64 j ||| (1#64 <<< k)) }
        bwrite b
        brelse b
        return (i, j, k)
      | none => mapAllocFrom readNth exhausted remaining (i + 1)

def balloc : FsM Task UInt32 := do
  let mount ← get
  let (i, j, k) ← mapAllocFrom readNthBmap "balloc: space exhausted"
    (mount.sb.blocks - mount.sb.bmap) 0
  return UInt32.ofNat (i * BIT_CNT_PER_BLOCK + j * 64 + k + mount.sb.blocks)

/-- The difference `blockno - sb->blocks` is a `u32`. -/
def bfree (blockno : UInt32) : FsM Task Unit := do
  let mount ← get
  let offset := (blockno - UInt32.ofNat mount.sb.blocks).toNat
  let k := offset % BIT_CNT_PER_BLOCK
  let b ← readNthBmap (offset / BIT_CNT_PER_BLOCK)
  let word := b.data.u64 (k / 64)
  if word &&& (1#64 <<< (k % 64)) = 0#64 then throw (.panic "bfree: double free")
  else do
    let b := { b with data := b.data.setU64 (k / 64) (word &&& ~~~(1#64 <<< (k % 64))) }
    bwrite b
    brelse b

end Tnix.Fs
