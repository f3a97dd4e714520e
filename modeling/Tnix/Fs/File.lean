import Tnix.Fs.Inode

/-! # `file.c`

File objects come from `alloc_file_slot` of `slot.c` and point to an inode or to an
entry of the `pipecache` of `pipe.c`. -/

namespace Tnix.Fs

variable {Task : Type}

/-! ## Pipes -/

def getPipe (p : Fin NPIPE) : FsM Task PipeEntry := do
  let mount ← get
  return mount.pipes p

def setPipe (p : Fin NPIPE) (entry : PipeEntry) : FsM Task Unit :=
  modify fun mount => { mount with pipes := Function.update mount.pipes p entry }

def pipealloc : FsM Task (Fin NPIPE) := do
  let mount ← get
  match (List.finRange NPIPE).find? fun p => (mount.pipes p).refc = 0 with
  | some p => do
    let entry ← getPipe p
    setPipe p ⟨{ entry.pipe with nread := 0, nwrite := 0 }, 2⟩
    return p
  | none => throw (.panic "pipealloc: exhausted")

def pipeclose (p : Fin NPIPE) : FsM Task Unit := do
  let entry ← getPipe p
  if entry.refc = 0 then throw (.panic "pipeclose: refc=0")
  else setPipe p { entry with refc := entry.refc - 1 }

def pipeget (p : Fin NPIPE) : FsM Task Unit := do
  let entry ← getPipe p
  setPipe p { entry with refc := entry.refc + 1 }

/-- The bytes delivered; their number is what `piperead` returns. -/
def piperead (p : Fin NPIPE) (len : UInt32) : FsM Task (List UInt8) := do
  let entry ← getPipe p
  match entry.pipe.piperead len with
  | some (_, bytes, pipe) => do
    setPipe p { entry with pipe := pipe }
    return bytes
  | none => throw .sleeps

/-- The loop of `pipewrite`. Each turn copies at least one byte. -/
def pipewriteFrom (p : Fin NPIPE) (usrc : List UInt8) : Nat → UInt32 → FsM Task Unit
  | 0, _ => return ()
  | fuel + 1, totalWritten =>
    let len := UInt32.ofNat usrc.length
    if totalWritten < len then do
      let entry ← getPipe p
      match entry.pipe.pipewriteChunk (usrc.getD · 0) len totalWritten with
      | some (count, pipe) => do
        setPipe p { entry with pipe := pipe }
        pipewriteFrom p usrc fuel (totalWritten + count)
      | none => throw .sleeps
    else return ()

/-- The copies from the user succeed. -/
def pipewrite (p : Fin NPIPE) (usrc : List UInt8) : FsM Task UInt32 := do
  pipewriteFrom p usrc usrc.length 0
  return UInt32.ofNat usrc.length

/-! ## File objects -/

def getFile (f : Fin FILE_CNT) : FsM Task File := do
  let mount ← get
  return (mount.files f).obj

def setFile (f : Fin FILE_CNT) (file : File) : FsM Task Unit :=
  modify fun mount => { mount with
    files := Function.update mount.files f { mount.files f with obj := file } }

/-- The objects of the page of `f`, with zeros in place of them if none is in use: the
page is then allocated anew. -/
def freshPage (files : Fin FILE_CNT → FileChunk) (f : Fin FILE_CNT) :
    Fin FILE_CNT → FileChunk :=
  let samePage (g : Fin FILE_CNT) : Bool :=
    g.val / FILE_CNT_PER_PAGE == f.val / FILE_CNT_PER_PAGE
  if (List.finRange FILE_CNT).any fun g => samePage g && (files g).inuse then files
  else fun g => if samePage g then .zero else files g

def allocFileSlot : FsM Task (Fin FILE_CNT) := do
  let mount ← get
  match (List.finRange FILE_CNT).find? fun f => !(mount.files f).inuse with
  | some f => do
    let files := freshPage mount.files f
    set { mount with files := Function.update files f { files f with inuse := true } }
    return f
  | none => throw (.panic "alloc_file_slot: slot exhausted")

def freeFileSlot (f : Fin FILE_CNT) : FsM Task Unit :=
  modify fun mount => { mount with
    files := Function.update mount.files f { mount.files f with inuse := false } }

/-- The type, the mode and the pointer are what was in the object before. -/
def falloc : FsM Task (Fin FILE_CNT) := do
  let f ← allocFileSlot
  let file ← getFile f
  setFile f { file with off := 0, refc := 1 }
  return f

def fdup (f : Fin FILE_CNT) : FsM Task Unit := do
  let file ← getFile f
  if file.refc < 1 then throw (.panic "fdup: ref<1")
  else setFile f { file with refc := file.refc + 1 }

/-- What the last `fclose` does to what the object points to. -/
def fput (file : File) : FsM Task Unit :=
  match file.type, file.pointer with
  | .NONE, _ => return ()
  | _, .null => return ()
  | .PIPE, .pipe p => pipeclose p
  | .INODE, .inode slot => iput slot
  | .DEVICE, .inode slot => iput slot
  | _, _ => throw .null

def fclose (f : Fin FILE_CNT) : FsM Task Unit := do
  let file ← getFile f
  if file.refc = 0 then throw (.panic "fclose: ref=0")
  else do
    setFile f { file with refc := file.refc - 1 }
    if file.refc - 1 = 0 then do
      fput file
      freeFileSlot f

def fileInode (file : File) : FsM Task (Fin NINODE) :=
  match file.pointer with
  | .inode slot => return slot
  | _ => throw .null

/-! ## Reading and writing -/

/-- The quotient for the index block is by `IDX_CNT_PER_INDIRECT_BLCOK` bytes, as in
the source. -/
def blocknoOfData (slot : Fin NINODE) (off : Nat) : FsM Task UInt32 := do
  if off < BSIZE * NDIRECT then iblockAt slot (off / BSIZE)
  else do
    let i := (off - BSIZE * NDIRECT) / IDX_CNT_PER_INDIRECT_BLCOK
    let index ← iblockAt slot (i + NDIRECT)
    let b ← bread index.toNat
    let position : Int := (off / BSIZE : Nat) - (NDIRECT + i * IDX_CNT_PER_INDIRECT_BLCOK : Nat)
    brelse b
    if 0 ≤ position ∧ position < IDX_CNT_PER_INDIRECT_BLCOK then
      return b.data.u32 position.toNat
    else throw .bounds

/-- The copy loop of `fread`; `pend` bytes are left from offset `pcur` on. Each turn
copies at least one. -/
def freadFrom (slot : Fin NINODE) : Nat → Nat → Nat → FsM Task (List UInt8)
  | 0, _, _ => return []
  | fuel + 1, pcur, pend =>
    if pend = 0 then return []
    else do
      let len := min (BSIZE - pcur % BSIZE) pend
      let blockno ← blocknoOfData slot pcur
      let b ← bread blockno.toNat
      let bytes := (List.range len).map fun i => b.data.u8 (pcur % BSIZE + i)
      brelse b
      let rest ← freadFrom slot fuel (pcur + len) (pend - len)
      return bytes ++ rest

def fread (f : Fin FILE_CNT) (bytes : UInt32) : FsM Task (List UInt8) := do
  let file ← getFile f
  let slot ← fileInode file
  let inode ← getInode slot
  let pend := min bytes.toNat (inode.di.fsize - file.off).toNat
  let delivered ← freadFrom slot pend file.off.toNat pend
  setFile f { file with off := file.off + UInt32.ofNat delivered.length }
  return delivered

/-- The loop of `fwrite` that allocates blocks while `free < bytes`. -/
def fwriteGrow (slot : Fin NINODE) : Nat → Nat → Nat → FsM Task Unit
  | 0, _, _ => return ()
  | fuel + 1, free, bytes =>
    if free < bytes then do
      let b ← dataBlockAlloc slot
      brelse b
      fwriteGrow slot fuel ((free + BSIZE) % 2 ^ 32) bytes
    else return ()

/-- The copy loop of `fwrite`; `pend` is what is left of the source. -/
def fwriteFrom (slot : Fin NINODE) : Nat → Nat → List UInt8 → FsM Task Unit
  | 0, _, _ => return ()
  | fuel + 1, pcur, pend =>
    if pend = [] then return ()
    else do
      let len := min (BSIZE - pcur % BSIZE) pend.length
      let blockno ← blocknoOfData slot pcur
      let b ← bread blockno.toNat
      bwrite { b with data := b.data.setBytes (pcur % BSIZE) (pend.take len) }
      brelse b
      fwriteFrom slot fuel (pcur + len) (pend.drop len)

/-- The copies from the user succeed. -/
def fwrite (f : Fin FILE_CNT) (buf : List UInt8) : FsM Task UInt32 := do
  let file ← getFile f
  let slot ← fileInode file
  let inode ← getInode slot
  fwriteGrow slot buf.length (inode.di.fsize - file.off).toNat buf.length
  fwriteFrom slot buf.length file.off.toNat buf
  let done := UInt32.ofNat buf.length
  setFile f { file with off := file.off + done }
  let inode ← getInode slot
  setDi slot { inode.di with fsize := inode.di.fsize + done }
  iupdate slot
  return done

end Tnix.Fs
