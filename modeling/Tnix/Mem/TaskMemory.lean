import Tnix.Mem.Ownership
import Tnix.Mem.Regions

/-! # The memory of tasks

The rest of `vm.c`, and the functions of `task.c` and `sysmem.c` that map pages into the page
table of a task. -/

namespace Tnix.Vm

open Mem Program

inductive VmaType
  | STACK
  | HEAP
  | TEXT
  | DATA
  deriving DecidableEq

/-- `struct vma`, with the object that it is. -/
structure Vma where
  obj : Obj
  va : U64
  pa : U64
  size : U64
  type : VmaType
  attr : BitVec 16

/-- The `mm_struct` of a task, with its `vma_head` as a list, and `t->pagetable`. -/
structure TaskMm where
  obj : Obj
  pagetable : Nat
  vmas : List Vma
  nextHeap : U64

/-- The pages have two contents, words and the chunks of a slot allocator. What a page is for
decides which of them is meant. -/
structure VmState (Task : Type) where
  mem : Memory Task SlotName
  words : Nat → Words
  mm : Task → Option TaskMm

abbrev TaskM (Task : Type) := Program (VmState Task) MemFault

variable {Task : Type} [DecidableEq Task]

namespace VmState

def pages (state : VmState Task) : Pages Task Words :=
  ⟨state.mem.pages.links, state.mem.pages.inuse, state.words⟩

def setPages (state : VmState Task) (pages : Pages Task Words) : VmState Task :=
  { state with
    mem := { state.mem with pages := ⟨pages.links, pages.inuse, state.mem.pages.content⟩ }
    words := pages.content }

def setMm (state : VmState Task) (t : Task) (mm : TaskMm) : VmState Task :=
  { state with mm := Function.update state.mm t (some mm) }

end VmState

/-! ## Memory -/

def onPages {α : Type} (program : VmM Task α) : TaskM Task α := fun state =>
  match program state.pages with
  | .error fault => .error fault
  | .ok (result, pages) => .ok (result, state.setPages pages)

def allocSlot (name : SlotName) : TaskM Task Obj := fun state =>
  match state.mem.allocSlot kernelSlots name with
  | .error fault => .error fault
  | .ok (obj, mem) => .ok (obj, { state with mem := mem })

def freeSlot (obj : Obj) : TaskM Task Unit := fun state =>
  match state.mem.freeSlot obj with
  | .error fault => .error fault
  | .ok mem => .ok ((), { state with mem := mem })

def allocPageForTask (t : Task) : TaskM Task Nat :=
  onPages fun pages => pages.allocPageForTask (fun _ => 0) t

def mmOf (t : Task) : TaskM Task TaskMm := fun state =>
  match state.mm t with
  | none => .error .null
  | some mm => .ok (mm, state)

/-- `memcpy` of a page, from the physical address of another one. -/
def copyPage (page : Nat) (source : U64) : TaskM Task Unit := do
  if source.toNat % PGSIZE = 0 ∧ PHY_MEMORY ≤ source.toNat ∧ source.toNat < PHY_TOP then
    modify fun state =>
      { state with words := Function.update state.words page (state.words (pageOf source)) }
  else throw .null

/-! ## Mapping -/

def taskVmmap (t : Task) (va pa size : U64) (attr : BitVec 16) (type : VmaType) :
    TaskM Task Unit := do
  let v ← allocSlot .vmaSlot
  let mm ← mmOf t
  modify fun state => state.setMm t { mm with vmas := mm.vmas ++ [⟨v, va, pa, size, type, attr⟩] }
  onPages (svmmap mm.pagetable va pa size attr (some t))

def copyVma (c : Task) (pvm : Vma) : TaskM Task Unit := do
  let page ← allocPageForTask c
  copyPage page pvm.pa
  taskVmmap c pvm.va (paddr page) pvm.size pvm.attr pvm.type

/-- The loop of `copy_pagetable`, over the rest of the list of the parent. -/
def copyVmas (c : Task) : List Vma → TaskM Task Unit
  | [] => return ()
  | pvm :: rest => do
    copyVma c pvm
    copyVmas c rest

def copyPagetable (c p : Task) : TaskM Task Unit := do
  let pm ← mmOf p
  copyVmas c pm.vmas

/-! ## System calls -/

/-- The result is 0 when the heap has reached the stack. -/
def sysAlloc (t : Task) : TaskM Task U64 := do
  let mm ← mmOf t
  if mm.nextHeap = BitVec.ofNat 64 USTACK then return 0
  else do
    let p ← allocPageForTask t
    taskVmmap t mm.nextHeap (paddr p) (BitVec.ofNat 64 PGSIZE) (PTE_U ||| PTE_W ||| PTE_R) .HEAP
    let mm ← mmOf t
    let r := mm.nextHeap
    modify fun state => state.setMm t { mm with nextHeap := mm.nextHeap + BitVec.ofNat 64 PGSIZE }
    return r

/-- `sys_free` takes the vma for the one of the address. -/
def Vma.isHeapAt (a0 : U64) (vma : Vma) : Bool := vma.type = .HEAP ∧ vma.pa = a0

def freeHeap (a0 : U64) : List Vma → TaskM Task Unit
  | [] => return ()
  | vma :: rest => do
    if vma.isHeapAt a0 then do
      freeSlot vma.obj
      freeHeap a0 rest
    else freeHeap a0 rest

/-- The argument is compared with physical addresses, and the result is -1 in any case. -/
def sysFree (t : Task) (a0 : U64) : TaskM Task U64 := do
  if a0 = 0 then return -1
  else if a0.toNat % PGSIZE ≠ 0 then return -1
  else do
    let mm ← mmOf t
    freeHeap a0 mm.vmas
    modify fun state => state.setMm t { mm with vmas := mm.vmas.filter (!·.isHeapAt a0) }
    return -1

end Tnix.Vm
