import Tnix.Fs.Inode

/-! # `dir.c`

Strings are lists of bytes without the final NUL. -/

namespace Tnix.Fs

variable {Task : Type}

def slash : UInt8 := 47

def dot : UInt8 := 46

/-! ## Paths -/

/-- The first component of a path that is not empty, and what follows its slash;
`none` is `NULL`. The copy to `dname` takes the NUL along for the last component. -/
def parsePath (path : List UInt8) : FsM Task (Option (List UInt8 × List UInt8)) := do
  if path = [] then return none
  else
    let dname := path.takeWhile (· ≠ slash)
    match path.dropWhile (· ≠ slash) with
    | [] => if DLENGTH < dname.length + 1 then throw .bounds else return some (dname, [])
    | _ :: rest => if DLENGTH < dname.length then throw .bounds else return some (dname, rest)

/-- The path up to its last slash and the name after it; `.` if there is no slash. -/
def splitLast (path : List UInt8) : List UInt8 × List UInt8 :=
  if slash ∈ path then
    (((path.reverse.dropWhile (· ≠ slash)).tail).reverse,
      (path.reverse.takeWhile (· ≠ slash)).reverse)
  else ([dot], path)

/-- `path_split` into buffers of `MAX_PATH_LENGTH` and `limit` bytes. -/
def pathSplit (path : List UInt8) (limit : Nat) : FsM Task (List UInt8 × List UInt8) := do
  let (parentpath, filename) := splitLast path
  if limit < filename.length then throw .bounds
  else return (parentpath, filename)

/-! ## Lookup -/

def findEntryFrom (data : Block) (name : List UInt8) : Nat → Nat → Nat → Option Nat
  | 0, _, _ => none
  | remaining + 1, j, k =>
    if k < data.cnt.toNat then
      if data.dentryNameEqual j name then some j
      else findEntryFrom data name remaining (j + 1) (if data.live j then k + 1 else k)
    else none

def findEntry (data : Block) (name : List UInt8) : Option Nat :=
  findEntryFrom data name Block.dentryMax 1 0

/-- The loop over the blocks of the directory `cur`; `some` when the name was found,
with what `iget` returned, and then `cur` has been put. -/
def findInFrom (cur : Fin NINODE) (name : List UInt8) :
    Nat → Nat → FsM Task (Option (Option (Fin NINODE)))
  | 0, _ => return none
  | remaining + 1, i => do
    let b ← dataBlockGet cur i
    match findEntry b.data name with
    | some j => do
      iput cur
      let found ← iget (b.data.dentryInum j)
      brelse b
      return some found
    | none => do
      brelse b
      findInFrom cur name remaining (i + 1)

/-- The loop over the components of the path. Each takes at least one byte of it. -/
def walkFrom : Nat → Option (Fin NINODE) → List UInt8 → FsM Task (Option (Fin NINODE))
  | 0, cur, _ => return cur
  | fuel + 1, cur, path => do
    match ← parsePath path with
    | none => return cur
    | some (dname, rest) =>
      match cur with
      | none => throw .null
      | some slot => do
        let inode ← getInode slot
        match ← findInFrom slot dname (iblockCnt inode.di).toNat 0 with
        | some found => walkFrom fuel found rest
        | none => do
          iput slot
          return none

def dentryFind (task : Task) (path : List UInt8) : FsM Task (Option (Fin NINODE)) := do
  if path.head? = some slash then do
    let cur ← iget (UInt32.ofNat ROOTINUM)
    walkFrom path.length cur path.tail
  else do
    let fsStruct ← getFsStruct task
    let cwd ← getInode fsStruct.cwd
    let cur ← iget cwd.inum
    walkFrom path.length cur path

/-! ## Adding and deleting -/

def freeEntry (data : Block) : Option Nat :=
  (List.range' 1 Block.dentryMax).find? fun j => !data.live j

def setEntry (data : Block) (j : Nat) (inum : UInt32) (name : List UInt8) : Block :=
  (data.setU32 (8 * j) inum).dentryNameSet j name

def addInFrom (dir : Fin NINODE) (inum : UInt32) (name : List UInt8) :
    Nat → Nat → FsM Task Bool
  | 0, _ => return false
  | remaining + 1, i => do
    let b ← dataBlockGet dir i
    if b.data.cnt = BitVec.ofNat 64 Block.dentryMax then do
      brelse b
      addInFrom dir inum name remaining (i + 1)
    else
      match freeEntry b.data with
      | some j => do
        let data := setEntry b.data j inum name
        bwrite { b with data := data.setU64 0 (data.cnt + 1) }
        brelse b
        return true
      | none => do
        brelse b
        addInFrom dir inum name remaining (i + 1)

def dentryAdd (dir : Fin NINODE) (inum : UInt32) (name : List UInt8) : FsM Task Unit := do
  let inode ← getInode dir
  if ← addInFrom dir inum name (iblockCnt inode.di).toNat 0 then return ()
  else do
    let b ← dataBlockAlloc dir
    bwrite { b with data := setEntry (b.data.setU64 0 1) 1 inum name }
    brelse b
    let inode ← getInode dir
    setDi dir { inode.di with fsize := inode.di.fsize + UInt32.ofNat BSIZE }
    iupdate dir

/-- `*(u64*)(dt->name) = 0`. -/
def clearName (data : Block) (j : Nat) : Block :=
  BitField.put data (8 * (32 * j + 4)) (0#64)

def delInFrom (dir : Fin NINODE) (name : List UInt8) : Nat → Nat → FsM Task Unit
  | 0, _ => return ()
  | remaining + 1, i => do
    let b ← dataBlockGet dir i
    match findEntry b.data name with
    | some j => do
      let data := clearName b.data j
      let data := data.setU64 0 (data.cnt - 1)
      if data.cnt = 0 then do
        idxRemove dir i
        let inode ← getInode dir
        setDi dir { inode.di with fsize := inode.di.fsize - UInt32.ofNat BSIZE }
        iupdate dir
        bfree (UInt32.ofNat b.blockno)
      else bwrite { b with data := data }
      brelse b
    | none => do
      brelse b
      delInFrom dir name remaining (i + 1)

def dentryDel (dir : Fin NINODE) (name : List UInt8) : FsM Task Unit := do
  let inode ← getInode dir
  delInFrom dir name (iblockCnt inode.di).toNat 0

end Tnix.Fs
