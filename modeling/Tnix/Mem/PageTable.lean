import Tnix.Foundation.Program
import Tnix.Foundation.RadixTable
import Tnix.Mem.Alloc

/-! # Page tables

`do_vmmap`, `vmunmap`, `get_pte` and `va_to_pa` of `vm.c`. A page holds 512 words. A page of a
table is named by its index in `phy_mem`; a pointer to a page that is not there is not
followed. -/

namespace Tnix.Vm

open Mem

abbrev U64 := BitVec 64

abbrev Words := Nat → U64

abbrev VmM (Task : Type) := Program (Pages Task Words) MemFault

variable {Task : Type} [DecidableEq Task]

def PTE_V : U64 := 1

def PTE_R : BitVec 16 := 2

def PTE_W : BitVec 16 := 4

def PTE_X : BitVec 16 := 8

def PTE_U : BitVec 16 := 16

def PTE_RWX : U64 := 14

/-- `va_level`: the index for a level of the table. -/
def vaLevel (va : U64) (level : Nat) : Nat := (((va >>> 12) >>> (9 * level)) &&& 0x1FF).toNat

def paddr (p : Nat) : U64 := BitVec.ofNat 64 (PHY_MEMORY + p * PGSIZE)

def pageOf (address : U64) : Nat := (address - BitVec.ofNat 64 PHY_MEMORY).toNat / PGSIZE

def tableOf (pte : U64) : Nat := pageOf ((pte >>> 10) <<< 12)

def tablePte (p : Nat) : U64 := ((paddr p >>> 12) <<< 10) ||| PTE_V

def leafPte (pa : U64) (attr : BitVec 16) : U64 :=
  ((pa >>> 12) <<< 10) ||| PTE_V ||| attr.setWidth 64

def isValid (pte : U64) : Bool := pte &&& PTE_V != 0

def isLeaf (pte : U64) : Bool := pte &&& PTE_RWX != 0

def readPte (table index : Nat) : VmM Task U64 := do
  let pages ← get
  if table < NPAGE then return pages.content table index else throw .null

def writePte (table index : Nat) (pte : U64) : VmM Task Unit := do
  let pages ← get
  if table < NPAGE then set { pages with content := Radix.store pages.content table index pte }
  else throw .null

/-! ## Mapping -/

inductive Granularity
  | S_PAGE
  | M_PAGE
  | G_PAGE
  deriving DecidableEq

def Granularity.level : Granularity → Nat
  | .S_PAGE => 0
  | .M_PAGE => 1
  | .G_PAGE => 2

def Granularity.delta : Granularity → Nat
  | .S_PAGE => PGSIZE
  | .M_PAGE => MPGSIZE
  | .G_PAGE => GPGSIZE

/-- A page of a table, which goes to the list of the task `ut`. -/
def newTable (ut : Option Task) : VmM Task Nat :=
  match ut with
  | none => fun pages => pages.allocPage fun _ => 0
  | some t => fun pages => pages.allocPageForTask (fun _ => 0) t

/-- The entry of a level above the leaves, after a new page if there was none. -/
def descend (cur vpn : Nat) (ut : Option Task) : VmM Task Nat := do
  let pte ← readPte cur vpn
  if isValid pte then return tableOf pte
  else do
    let p ← newTable ut
    writePte cur vpn (tablePte p)
    return tableOf (tablePte p)

/-- The walk of `do_vmmap` for one address, from a level down. -/
def mapFrom (va pa : U64) (attr : BitVec 16) (gra : Granularity) (ut : Option Task) :
    Nat → Nat → VmM Task Unit
  | 0, cur =>
    if gra.level = 0 then writePte cur (vaLevel va 0) (leafPte pa attr)
    else do
      let _ ← descend cur (vaLevel va 0) ut
      return ()
  | level + 1, cur =>
    if gra.level = level + 1 then writePte cur (vaLevel va (level + 1)) (leafPte pa attr)
    else do
      let next ← descend cur (vaLevel va (level + 1)) ut
      mapFrom va pa attr gra ut level next

def mapRangeFrom (ptb : Nat) (bound : U64) (attr : BitVec 16) (gra : Granularity)
    (ut : Option Task) : Nat → U64 → U64 → VmM Task Unit
  | 0, _, _ => throw .endless
  | fuel + 1, va, pa =>
    if va < bound then do
      mapFrom va pa attr gra ut 2 ptb
      mapRangeFrom ptb bound attr gra ut fuel (va + BitVec.ofNat 64 gra.delta)
        (pa + BitVec.ofNat 64 gra.delta)
    else return ()

/-- There are no more turns than pages up to the bound. -/
def doVmmap (ptb : Nat) (va pa size : U64) (attr : BitVec 16) (gra : Granularity)
    (ut : Option Task) : VmM Task Unit :=
  if va.toNat % PGSIZE ≠ 0 ∨ pa.toNat % PGSIZE ≠ 0 then throw (.panic "do_vmmap: not aligned")
  else if VA_TOP < (va + size).toNat ∨ PHY_TOP < (pa + size).toNat then
    throw (.panic "do_vmmap: out of range")
  else
    let bound := BitVec.ofNat 64 (alignUp (va + size).toNat gra.delta)
    mapRangeFrom ptb bound attr gra ut (bound.toNat / PGSIZE + 1) va pa

def svmmap (ptb : Nat) (va pa size : U64) (attr : BitVec 16) (ut : Option Task) : VmM Task Unit :=
  doVmmap ptb va pa size attr .S_PAGE ut

def mvmmap (ptb : Nat) (va pa size : U64) (attr : BitVec 16) : VmM Task Unit :=
  doVmmap ptb va pa size attr .M_PAGE none

/-! ## Unmapping -/

/-- The walk of `vmunmap` for one address, from a level down. -/
def unmapFrom (va : U64) : Nat → Nat → VmM Task Unit
  | 0, cur => do
    let pte ← readPte cur (vaLevel va 0)
    if isValid pte then writePte cur (vaLevel va 0) 0 else return ()
  | level + 1, cur => do
    let pte ← readPte cur (vaLevel va (level + 1))
    if isValid pte then unmapFrom va level (tableOf pte) else return ()

def unmapRangeFrom (ptb : Nat) (bound : U64) : Nat → U64 → VmM Task Unit
  | 0, _ => throw .endless
  | fuel + 1, va =>
    if va < bound then do
      unmapFrom va 2 ptb
      unmapRangeFrom ptb bound fuel (va + BitVec.ofNat 64 PGSIZE)
    else return ()

def vmunmap (ptb : Nat) (va size : U64) : VmM Task Unit :=
  if va.toNat % PGSIZE ≠ 0 then throw (.panic "vmunmap: not aligned")
  else if VA_TOP < (va + size).toNat then throw (.panic "vmunmap: out of range")
  else
    let bound := BitVec.ofNat 64 (alignUp (va + size).toNat PGSIZE)
    unmapRangeFrom ptb bound (bound.toNat / PGSIZE + 1) va

/-! ## Translation -/

/-- The walk of `get_pte` from a level down; the pointer is a page and an index. -/
def getPteFrom (va : U64) : Nat → Nat → VmM Task (Option (Nat × Nat))
  | 0, cur => do
    let pte ← readPte cur (vaLevel va 0)
    if isValid pte ∧ isLeaf pte then return some (cur, vaLevel va 0) else return none
  | level + 1, cur => do
    let pte ← readPte cur (vaLevel va (level + 1))
    if isValid pte then
      if isLeaf pte then return some (cur, vaLevel va (level + 1))
      else getPteFrom va level (tableOf pte)
    else return none

def getPte (ptb : Nat) (va : U64) : VmM Task (Option (Nat × Nat)) := getPteFrom va 2 ptb

/-- The address, and `*p` if it is set. -/
def vaToPa (ptb : Nat) (va : U64) : VmM Task (U64 × Option U64) := do
  match ← getPte ptb va with
  | none => return (0, none)
  | some (table, index) => do
    let pte ← readPte table index
    if isLeaf pte then
      let ppn := (pte >>> 10) &&& BitVec.ofNat 64 (2 ^ 44 - 1)
      let offset := va &&& BitVec.ofNat 64 (PGSIZE - 1)
      return ((ppn <<< 12) ||| offset, some pte)
    else return (0, none)

end Tnix.Vm
