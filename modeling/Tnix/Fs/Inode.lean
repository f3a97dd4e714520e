import Tnix.Fs.Mount

/-! # `inode.c` -/

namespace Tnix.Fs

variable {Task : Type}

/-! ## Reading and writing a dinode -/

/-- `imap_offset_of_inode` in the block of `imap_blockno_of_inode`, a byte at a time. -/
def iexist (inum : UInt32) : FsM Task Bool := do
  let mount ← get
  let buf ← bread (mount.sb.imap + inum.toNat / BIT_CNT_PER_BLOCK)
  let k := inum.toNat % BIT_CNT_PER_BLOCK
  brelse buf
  return (buf.data.u8 (k / 8)).toBitVec &&& (1#8 <<< (k % 8)) != 0#8

def setInode (slot : Fin NINODE) (inode : Inode Unit) : FsM Task Unit :=
  modify fun mount => { mount with icache := Function.update mount.icache slot inode }

def getInode (slot : Fin NINODE) : FsM Task (Inode Unit) := do
  let mount ← get
  return mount.icache slot

def iread (slot : Fin NINODE) : FsM Task Unit := do
  let mount ← get
  let inode ← getInode slot
  let buf ← bread (mount.sb.inodes + inode.inum.toNat / DINODE_CNT_PER_BLOCK)
  setInode slot
    { inode with di := buf.data.dinode (inode.inum.toNat % DINODE_CNT_PER_BLOCK) }
  brelse buf

def iupdate (slot : Fin NINODE) : FsM Task Unit := do
  let mount ← get
  let inode ← getInode slot
  let buf ← bread (mount.sb.inodes + inode.inum.toNat / DINODE_CNT_PER_BLOCK)
  let buf := { buf with
    data := buf.data.setDinode (inode.inum.toNat % DINODE_CNT_PER_BLOCK) inode.di }
  bwrite buf
  brelse buf

/-! ## The inode cache -/

def findInode (mount : Mount Task) (test : Inode Unit → Bool) : Option (Fin NINODE) :=
  (List.finRange NINODE).find? fun slot => test (mount.icache slot)

/-- `none` is `NULL`. -/
def iget (inum : UInt32) : FsM Task (Option (Fin NINODE)) := do
  let mount ← get
  match findInode mount fun inode => inode.sb.isSome && inode.inum == inum with
  | some slot => do
    let inode ← getInode slot
    setInode slot { inode with refc := inode.refc + 1 }
    return some slot
  | none => do
    if ← iexist inum then do
      let mount ← get
      match findInode mount fun inode => inode.refc == 0 with
      | none => throw (.panic "iget: icache exhausted")
      | some slot => do
        let inode ← getInode slot
        setInode slot { inode with refc := 1, sb := some (), inum := inum }
        iread slot
        return some slot
    else return none

def iput (slot : Fin NINODE) : FsM Task Unit := do
  let inode ← getInode slot
  setInode slot { inode with refc := inode.refc - 1 }

def iref (slot : Fin NINODE) : FsM Task Unit := do
  let inode ← getInode slot
  setInode slot { inode with refc := inode.refc + 1 }

def setDi (slot : Fin NINODE) (di : Dinode) : FsM Task Unit := do
  let inode ← getInode slot
  setInode slot { inode with di := di }

def iblockAt (slot : Fin NINODE) (i : Nat) : FsM Task UInt32 := do
  let inode ← getInode slot
  if inRange : i < NDIRECT + NINDIRECT then return inode.di.iblock ⟨i, inRange⟩
  else throw .bounds

def setIblock (slot : Fin NINODE) (i : Nat) (blockno : UInt32) : FsM Task Unit := do
  let inode ← getInode slot
  if inRange : i < NDIRECT + NINDIRECT then
    setDi slot { inode.di with iblock := Function.update inode.di.iblock ⟨i, inRange⟩ blockno }
  else throw .bounds

/-! ## Allocation and truncation -/

/-- The inode number is built with `j * sizeof(u64)`. -/
def ialloc : FsM Task UInt32 := do
  let mount ← get
  let (i, j, k) ← mapAllocFrom readNthImap "ialloc: dinode exhausted"
    (mount.sb.inodes - mount.sb.imap) 0
  return UInt32.ofNat (i * BIT_CNT_PER_BLOCK + j * 8 + k)

/-- One iteration of the loops of `itrunc`: clears a block and frees it. -/
def clearBlock (blockno : UInt32) : FsM Task Unit := do
  let b ← bread blockno.toNat
  bzero b
  brelse b
  bfree blockno

def itruncIndexFrom (index : Block) : Nat → Nat → FsM Task Unit
  | 0, _ => return ()
  | remaining + 1, j => do
    let blockno := index.u32 j
    if blockno = 0 then return ()
    else do
      clearBlock blockno
      itruncIndexFrom index remaining (j + 1)

def itruncFrom (slot : Fin NINODE) : Nat → Nat → FsM Task Unit
  | 0, _ => return ()
  | remaining + 1, i => do
    let blockno ← iblockAt slot i
    if blockno = 0 then return ()
    else do
      let b ← bread blockno.toNat
      if NDIRECT ≤ i then itruncIndexFrom b.data IDX_CNT_PER_INDIRECT_BLCOK 0
      bzero b
      brelse b
      bfree blockno
      setIblock slot i 0
      itruncFrom slot remaining (i + 1)

def itrunc (slot : Fin NINODE) : FsM Task Unit := do
  let inode ← getInode slot
  setDi slot { inode.di with fsize := 0 }
  itruncFrom slot (NDIRECT + NINDIRECT) 0

def ifree (slot : Fin NINODE) : FsM Task Unit := do
  itrunc slot
  let inode ← getInode slot
  setDi slot { inode.di with type := .UNUSE }
  iupdate slot
  let inode ← getInode slot
  let b ← readNthImap (inode.inum.toNat / BIT_CNT_PER_BLOCK)
  let k := inode.inum.toNat % BIT_CNT_PER_BLOCK
  let byte := (b.data.u8 (k / 8)).toBitVec &&& ~~~(1#8 <<< (k % 8))
  let b := { b with data := b.data.setU8 (k / 8) ⟨byte⟩ }
  bwrite b
  brelse b

/-! ## Data blocks -/

/-- `iblock_cnt`, an `int`: -1 for a file smaller than a block. -/
def iblockCnt (di : Dinode) : Int :=
  (di.fsize.toNat / BSIZE : Nat) - (if di.fsize.toNat % BSIZE = 0 then 0 else 1)

def dataBlockGet (slot : Fin NINODE) (i : Nat) : FsM Task IoBuf := do
  if i < NDIRECT then do
    let blockno ← iblockAt slot i
    bread blockno.toNat
  else do
    let index ← iblockAt slot (NDIRECT + (i - NDIRECT) / IDX_CNT_PER_INDIRECT_BLCOK)
    let b ← bread index.toNat
    let blockno := b.data.u32 ((i - NDIRECT) % IDX_CNT_PER_INDIRECT_BLCOK)
    brelse b
    bread blockno.toNat

def FILE_MAX_DATA_BLOCKNUM : Nat := NDIRECT + NINDIRECT * 4

/-- `curn` is a `u32`. -/
def dataBlockAlloc (slot : Fin NINODE) : FsM Task IoBuf := do
  let inode ← getInode slot
  let curn := (iblockCnt inode.di % 2 ^ 32).toNat
  if curn = FILE_MAX_DATA_BLOCKNUM then throw (.panic "data_block_alloc: file too big")
  else do
    let blockno ← balloc
    if curn < NDIRECT then setIblock slot curn blockno
    else do
      let curn := curn - NDIRECT
      let position := NDIRECT + curn / IDX_CNT_PER_INDIRECT_BLCOK
      if curn % IDX_CNT_PER_INDIRECT_BLCOK = 0 then do
        let iblockno ← balloc
        setIblock slot position iblockno
        let b ← bread iblockno.toNat
        let b := { b with data := b.data.setU32 0 blockno }
        bwrite b
        brelse b
      else do
        let index ← iblockAt slot position
        let b ← bread index.toNat
        let b := { b with
          data := b.data.setU32 (curn % IDX_CNT_PER_INDIRECT_BLCOK) blockno }
        bwrite b
        brelse b
    bread blockno.toNat

/-! ## `idx_remove` -/

/-- `for (j = i; j < limit; ++j) iblock[j] = iblock[j + 1]`. -/
def shiftIblockFrom (slot : Fin NINODE) : Nat → Nat → FsM Task Unit
  | 0, _ => return ()
  | remaining + 1, j => do
    let blockno ← iblockAt slot (j + 1)
    setIblock slot j blockno
    shiftIblockFrom slot remaining (j + 1)

def shiftWordsFrom : Nat → Block → Nat → Block × Nat
  | 0, data, k => (data, k)
  | remaining + 1, data, k =>
    if data.u32 k ≠ 0 ∧ k < IDX_CNT_PER_INDIRECT_BLCOK - 1 then
      shiftWordsFrom remaining (data.setU32 k (data.u32 (k + 1))) (k + 1)
    else (data, k)

/-- The loop over the index blocks; it shifts the words of the first from `k` on. -/
def shiftIndexFrom (slot : Fin NINODE) : Nat → Nat → Nat → FsM Task Unit
  | 0, _, _ => return ()
  | remaining + 1, j, k => do
    let index ← iblockAt slot j
    if index = 0 then return ()
    else do
      let b ← bread index.toNat
      let (data, k) := shiftWordsFrom IDX_CNT_PER_INDIRECT_BLCOK b.data k
      let data ←
        if data.u32 k ≠ 0 then do
          let following ← iblockAt slot (j + 1)
          if following ≠ 0 then do
            let nb ← bread following.toNat
            brelse nb
            pure (data.setU32 k (data.u32 0))
          else pure (data.setU32 k 0)
        else pure data
      bwrite { b with data := data }
      bzero b
      brelse b
      shiftIndexFrom slot remaining (j + 1) 0

def idxRemove (slot : Fin NINODE) (i : Nat) : FsM Task Unit := do
  let inode ← getInode slot
  let blockcnt := iblockCnt inode.di
  if blockcnt < NDIRECT then do
    let blockno ← iblockAt slot i
    let b ← bread blockno.toNat
    bzero b
    brelse b
    shiftIblockFrom slot (blockcnt.toNat - i) i
  else if i < NDIRECT then do
    let blockno ← iblockAt slot i
    let b ← bread blockno.toNat
    bzero b
    brelse b
    shiftIblockFrom slot (NDIRECT - 1 - i) i
    let index ← iblockAt slot NDIRECT
    let b ← bread index.toNat
    setIblock slot (NDIRECT - 1) (b.data.u32 0)
    brelse b
    shiftIndexFrom slot NINDIRECT NDIRECT 0
  else do
    let first := (i - NDIRECT) / IDX_CNT_PER_INDIRECT_BLCOK
    shiftIndexFrom slot (NINDIRECT - first) (NDIRECT + first)
      ((i - NDIRECT) % IDX_CNT_PER_INDIRECT_BLCOK)

end Tnix.Fs
