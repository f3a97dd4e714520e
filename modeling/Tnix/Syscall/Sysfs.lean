import Tnix.Fs.Dir
import Tnix.Fs.File

/-! # `sysfs.c`, and the file system's part of `fork` and `exit`

The system calls as functions of the path strings and descriptors. A fault ends a call without a
return. What the calls copy from and to the user always succeeds. -/

namespace Tnix.Syscall

open Tnix.Fs
variable {Task : Type}

def O_RDONLY : Nat := 1

def O_WRONLY : Nat := 2

def O_RDWR : Nat := 4

def O_CREAT : Nat := 8

def O_APPEND : Nat := 16

/-- Whether `argstr` copies the path. -/
def argstr (path : List UInt8) : Bool := (Tnix.argstr path).isSome

def deref (inode : Option (Fin NINODE)) : FsM Task (Fin NINODE) :=
  match inode with
  | some slot => return slot
  | none => throw .null

def devswValid (dev : UInt32) : FsM Task Bool := do
  let mount ← get
  if inRange : dev.toNat < NDEV then return mount.devsw ⟨dev.toNat, inRange⟩
  else throw .bounds

/-- The cases of `create` that fill in the new inode; `false` when the call returns. -/
def createAs (parent new : Fin NINODE) (type : Ftype) (dev : UInt32) : FsM Task Bool := do
  let inode ← getInode new
  setDi new { inode.di with nlink := 1 }
  match type with
  | .REGULAR => do
    let inode ← getInode new
    setDi new { inode.di with type := .REGULAR }
    return true
  | .DIRECTORY => do
    let inode ← getInode new
    setDi new { inode.di with type := .DIRECTORY }
    dentryAdd new inode.inum [dot]
    let parentInode ← getInode parent
    dentryAdd new parentInode.inum [dot, dot]
    let parentInode ← getInode parent
    setDi parent { parentInode.di with nlink := parentInode.di.nlink + 1 }
    return true
  | .CHAR => do
    if ← devswValid dev then do
      let inode ← getInode new
      setDi new { inode.di with dev := dev, type := .CHAR }
      return true
    else return false
  | .UNUSE => return false

def create (task : Task) (path : List UInt8) (type : Ftype) (dev : UInt32) :
    FsM Task Int := do
  match ← dentryFind task path with
  | some slot => do
    iput slot
    return -1
  | none => do
    let (parentpath, filename) ← pathSplit path DLENGTH
    match ← dentryFind task parentpath with
    | none => return -1
    | some parent => do
      let inum ← ialloc
      let new ← deref (← iget inum)
      if ← createAs parent new type dev then do
        iupdate new
        iput new
        let inode ← getInode new
        dentryAdd parent inode.inum filename
        iput parent
        return 0
      else return 0

/-! ## Descriptors -/

def moveFdi (fsStruct : FsStruct) : FsStruct :=
  match (List.finRange NFILE).find? fun fd => fsStruct.fdx ≤ fd.val ∧ fsStruct.files fd = none with
  | some fd => { fsStruct with fdx := fd }
  | none => fsStruct

/-- Installs the file in the descriptor table and returns its descriptor. -/
def installFile [DecidableEq Task] (task : Task) (f : Fin FILE_CNT) : FsM Task Int := do
  let fsStruct ← getFsStruct task
  if inRange : fsStruct.fdx < NFILE then do
    let files := Function.update fsStruct.files ⟨fsStruct.fdx, inRange⟩ (some f)
    setFsStruct task (some (moveFdi { fsStruct with files := files }))
    return fsStruct.fdx
  else throw .bounds

/-- `files[fd]` as an index; `fd` is an `int`. -/
def descriptor (fd : Int) : FsM Task (Fin NFILE) :=
  if inRange : fd.toNat < NFILE then
    if 0 ≤ fd then return ⟨fd.toNat, inRange⟩ else throw .bounds
  else throw .bounds

/-- The stores of `sys_open`, `sys_pipe` and `copy_fs` to a new file object. -/
def fill (f : Fin FILE_CNT) (type : FileType) (mode : Nat) (pointer : FilePointer) :
    FsM Task Unit := do
  let file ← getFile f
  setFile f { file with type := type, mode := mode, pointer := pointer }

/-- The last part of `sys_open`: a file object for the inode and a descriptor for it. -/
def openFile [DecidableEq Task] (task : Task) (slot : Fin NINODE) (mode : Nat) :
    FsM Task Int := do
  let f ← falloc
  let inode ← getInode slot
  fill f (if inode.di.type = .CHAR then .DEVICE else .INODE) mode (.inode slot)
  let file ← getFile f
  setFile f { file with off := if mode &&& O_APPEND ≠ 0 then inode.di.fsize else 0 }
  installFile task f

def openInode [DecidableEq Task] (task : Task) (slot : Fin NINODE) (mode : Nat) :
    FsM Task Int := do
  let inode ← getInode slot
  if inode.di.type = .DIRECTORY then do
    iput slot
    return -1
  else if mode &&& O_APPEND = 0 ∧ (mode &&& O_WRONLY ≠ 0 ∨ mode &&& O_RDWR ≠ 0) then do
    itrunc slot
    iupdate slot
    openFile task slot mode
  else openFile task slot mode

def sysOpen [DecidableEq Task] (task : Task) (path : List UInt8) (mode : Nat) :
    FsM Task Int := do
  if !argstr path then return -1
  else if mode &&& O_RDONLY ≠ 0 ∧ mode &&& O_WRONLY ≠ 0 ∧ mode &&& O_RDWR = 0 then return -1
  else
    match ← dentryFind task path with
    | some slot => openInode task slot mode
    | none =>
      if mode &&& O_CREAT = 0 then return -1
      else do
        let r ← create task path .REGULAR (UInt32.ofNat (2 ^ 32 - 1))
        if r < 0 then return r
        else do
          let slot ← deref (← dentryFind task path)
          openInode task slot mode

def sysMkdir (task : Task) (path : List UInt8) : FsM Task Int := do
  if !argstr path then return -1
  else create task path .DIRECTORY (UInt32.ofNat (2 ^ 32 - 1))

def sysLink (task : Task) (oldpath newpath : List UInt8) : FsM Task Int := do
  if !argstr oldpath || !argstr newpath then return -1
  else
    match ← dentryFind task newpath with
    | some slot => do
      iput slot
      return -1
    | none =>
      match ← dentryFind task oldpath with
      | none => return -1
      | some slot => do
        let inode ← getInode slot
        if inode.di.type ≠ .REGULAR then do
          iput slot
          return -1
        else do
          setDi slot { inode.di with nlink := inode.di.nlink + 1 }
          iupdate slot
          iput slot
          let (ppath, name) ← pathSplit newpath DLENGTH
          let parent ← deref (← dentryFind task ppath)
          dentryAdd parent inode.inum name
          iput parent
          return 0

def sysUnlink (task : Task) (path : List UInt8) : FsM Task Int := do
  if !argstr path then return -1
  else
    match ← dentryFind task path with
    | none => return -1
    | some slot => do
      let inode ← getInode slot
      if inode.di.type ≠ .REGULAR then do
        iput slot
        return -1
      else do
        setDi slot { inode.di with nlink := inode.di.nlink - 1 }
        if inode.di.nlink - 1 = 0 then ifree slot else iupdate slot
        iput slot
        let (ppath, name) ← pathSplit path DLENGTH
        let parent ← deref (← dentryFind task ppath)
        dentryDel parent name
        iupdate parent
        iput parent
        return 0

/-- The early returns keep the reference to the inode. -/
def sysRmdir (task : Task) (path : List UInt8) : FsM Task Int := do
  if !argstr path then return -1
  else
    match ← dentryFind task path with
    | none => return -1
    | some slot => do
      let inode ← getInode slot
      if inode.di.type ≠ .DIRECTORY then return -1
      else do
        let blockno ← iblockAt slot 0
        let b ← bread blockno.toNat
        if b.data.cnt ≠ 2 then do
          brelse b
          return -1
        else do
          brelse b
          iput slot
          let (pdir, name) ← pathSplit path MAX_PATH_LENGTH
          let parent ← deref (← dentryFind task pdir)
          dentryDel parent name
          let parentInode ← getInode parent
          setDi parent { parentInode.di with nlink := parentInode.di.nlink - 1 }
          iupdate parent
          iput parent
          return 0

def sysMknod (task : Task) (path : List UInt8) (dev : UInt32) : FsM Task Int := do
  if !argstr path then return -1
  else create task path .CHAR dev

def sysChdir [DecidableEq Task] (task : Task) (path : List UInt8) : FsM Task Int := do
  if !argstr path then return -1
  else
    match ← dentryFind task path with
    | none => return -1
    | some slot => do
      let fsStruct ← getFsStruct task
      iput fsStruct.cwd
      setFsStruct task (some { fsStruct with cwd := slot })
      return 0

/-! ## Calls on descriptors -/

/-- `answer` is what a device returns. -/
def sysRead (task : Task) (fd : Int) (len : UInt32) (answer : UInt32) : FsM Task Int := do
  let fsStruct ← getFsStruct task
  match fsStruct.files (← descriptor fd) with
  | none => return -1
  | some f => do
    let file ← getFile f
    if file.mode &&& O_RDONLY = 0 ∧ file.mode &&& O_RDWR = 0 then return -1
    else
      match file.type with
      | .NONE => return -1
      | .DEVICE => return answer.toNat
      | .INODE => return (← fread f len).length
      | .PIPE =>
        match file.pointer with
        | .pipe p => return (← piperead p len).length
        | _ => throw .null

def sysWrite (task : Task) (fd : Int) (usrc : List UInt8) (answer : UInt32) :
    FsM Task Int := do
  let fsStruct ← getFsStruct task
  match fsStruct.files (← descriptor fd) with
  | none => return -1
  | some f => do
    let file ← getFile f
    if file.mode &&& O_WRONLY = 0 ∧ file.mode &&& O_RDWR = 0 then return -1
    else
      match file.type with
      | .NONE => return -1
      | .DEVICE => return answer.toNat
      | .INODE => return (← fwrite f usrc).toNat
      | .PIPE =>
        match file.pointer with
        | .pipe p => return (← pipewrite p usrc).toNat
        | _ => throw .null

def sysDup [DecidableEq Task] (task : Task) (fd : Int) : FsM Task Int := do
  let fsStruct ← getFsStruct task
  match fsStruct.files (← descriptor fd) with
  | none => return -1
  | some f => do
    fdup f
    installFile task f

def sysClose [DecidableEq Task] (task : Task) (fd : Int) : FsM Task Int := do
  let fsStruct ← getFsStruct task
  let fd ← descriptor fd
  match fsStruct.files fd with
  | none => return -1
  | some f => do
    fclose f
    setFsStruct task (some { fsStruct with
      files := Function.update fsStruct.files fd none
      fdx := min fd.val fsStruct.fdx })
    return 0

/-- The first descriptor and the second are both for `rf`. -/
def sysPipe [DecidableEq Task] (task : Task) : FsM Task Int := do
  let p ← pipealloc
  let rf ← falloc
  let wf ← falloc
  fill rf .PIPE O_RDONLY (.pipe p)
  fill wf .PIPE O_WRONLY (.pipe p)
  let _ ← installFile task rf
  let _ ← installFile task rf
  return 0

/-! ## `task.c` -/

/-- The reference that `copy_fs` takes to what a file object points to. -/
def fget (file : File) : FsM Task Unit :=
  match file.type, file.pointer with
  | .NONE, _ => return ()
  | .PIPE, .pipe p => pipeget p
  | .INODE, .inode slot => iref slot
  | .DEVICE, .inode slot => iref slot
  | _, _ => throw .null

def copyFilesFrom : List (Fin NFILE) → (Fin NFILE → Option (Fin FILE_CNT)) →
    FsM Task (Fin NFILE → Option (Fin FILE_CNT))
  | [], files => return files
  | fd :: rest, files =>
    match files fd with
    | none => copyFilesFrom rest files
    | some pf => do
      let f ← falloc
      let parent ← getFile pf
      fill f parent.type parent.mode parent.pointer
      fget parent
      copyFilesFrom rest (Function.update files fd (some f))

def copyFs [DecidableEq Task] (child parent : Task) : FsM Task Unit := do
  let fsStruct ← getFsStruct parent
  iref fsStruct.cwd
  let files ← copyFilesFrom (List.finRange NFILE) fsStruct.files
  setFsStruct child (some { fsStruct with files := files })

def closeFilesFrom (files : Fin NFILE → Option (Fin FILE_CNT)) :
    List (Fin NFILE) → FsM Task Unit
  | [] => return ()
  | fd :: rest =>
    match files fd with
    | none => closeFilesFrom files rest
    | some f => do
      fclose f
      closeFilesFrom files rest

def cleanFsSource [DecidableEq Task] (task : Task) : FsM Task Unit := do
  let fsStruct ← getFsStruct task
  iput fsStruct.cwd
  closeFilesFrom fsStruct.files (List.finRange NFILE)
  setFsStruct task none

/-- `child` is what `alloc_task` returns, with its `pid`. -/
def sysFork [DecidableEq Task] (task : Task) (child : Option (Task × UInt16)) :
    FsM Task Int :=
  match child with
  | none => return -1
  | some (child, pid) => do
    copyFs child task
    return pid.toNat

def sysExit [DecidableEq Task] (task : Task) : FsM Task Int := do
  cleanFsSource task
  return 0

/-! ## Runs of calls -/

inductive Call (Task : Type)
  | sysOpen (path : List UInt8) (mode : Nat)
  | sysMkdir (path : List UInt8)
  | sysLink (oldpath newpath : List UInt8)
  | sysUnlink (path : List UInt8)
  | sysRmdir (path : List UInt8)
  | sysMknod (path : List UInt8) (dev : UInt32)
  | sysChdir (path : List UInt8)
  | sysRead (fd : Int) (len answer : UInt32)
  | sysWrite (fd : Int) (usrc : List UInt8) (answer : UInt32)
  | sysDup (fd : Int)
  | sysClose (fd : Int)
  | sysPipe
  | sysFork (child : Option (Task × UInt16))
  | sysExit

def Call.run [DecidableEq Task] (task : Task) : Call Task → FsM Task Int
  | .sysOpen path mode => Syscall.sysOpen task path mode
  | .sysMkdir path => Syscall.sysMkdir task path
  | .sysLink oldpath newpath => Syscall.sysLink task oldpath newpath
  | .sysUnlink path => Syscall.sysUnlink task path
  | .sysRmdir path => Syscall.sysRmdir task path
  | .sysMknod path dev => Syscall.sysMknod task path dev
  | .sysChdir path => Syscall.sysChdir task path
  | .sysRead fd len answer => Syscall.sysRead task fd len answer
  | .sysWrite fd usrc answer => Syscall.sysWrite task fd usrc answer
  | .sysDup fd => Syscall.sysDup task fd
  | .sysClose fd => Syscall.sysClose task fd
  | .sysPipe => Syscall.sysPipe task
  | .sysFork child => Syscall.sysFork task child
  | .sysExit => Syscall.sysExit task

/-- The caller runs, and `alloc_task` returns only a task that is free. -/
def Call.enabled (mount : Mount Task) (task : Task) : Call Task → Bool
  | .sysFork (some (child, _)) => (mount.tasks task).isSome && (mount.tasks child).isNone
  | _ => (mount.tasks task).isSome

/-- The state after `fs_init`: only the task `init` runs, in the root directory, and no
file is open. -/
structure Booted [DecidableEq Task] (init : Task) (mount : Mount Task) : Prop where
  tasks : ∃ cwd, mount.tasks =
      Function.update (fun _ => none) init (some ⟨cwd, fun _ => none, 0⟩) ∧
    (mount.icache cwd).sb = some () ∧ (mount.icache cwd).inum.toNat = ROOTINUM ∧
    ∀ slot, (mount.icache slot).refc = if slot = cwd then 1 else 0
  files : mount.files = fun _ => .zero
  pipes : ∀ p, (mount.pipes p).refc = 0
  held : mount.held = []

/-- Calls that do not overlap; a label is a call and the task that makes it. -/
def machine [DecidableEq Task] (init : Task) : Machine (Mount Task) (Task × Call Task) where
  Initial := Booted init
  step mount label :=
    if label.2.enabled mount label.1 then
      match label.2.run label.1 mount with
      | .ok (_, next) => some next
      | .error _ => none
    else none

end Tnix.Syscall
