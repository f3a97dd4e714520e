import Tnix.Foundation.Machine
import Tnix.Mem.SlotInvariant

/-! # Who has which page

The page allocator, the slot allocators, the tasks that use them, and other code. -/

namespace Tnix.Mem

open Function

/-- The allocators that are defined with `slot_define`. -/
inductive SlotName
  | vmaSlot
  | mmStructSlot
  | fsStructSlot
  | fileSlot
  deriving DecidableEq

/-- The uses of `slot_define`, with `NSLOT_DEFAULT` slots each. -/
def kernelSlots : SlotDefs SlotName where
  label
    | .vmaSlot => "vma_slot"
    | .mmStructSlot => "mm_struct_slot"
    | .fsStructSlot => "fs_struct_slot"
    | .fileSlot => "file_slot"
  num _ := 3
  size
    | .vmaSlot => 64
    | .mmStructSlot => 56
    | .fsStructSlot => 160
    | .fileSlot => 64
  num_pos _ := by decide
  chunks_pos name := by cases name <;> decide

/-- `mm` is `t->mm_struct` while there is one, and `vmas` what is on `vma_head`. The other
fields record who has what: `pagesOf` the pages that each task has got for itself, `raw` those
that other code has, and `owner` who has an object, a task or (`some none`) other code. -/
structure MemState (Task : Type) where
  mem : Memory Task SlotName
  mm : Task → Option Obj
  vmas : Task → List Obj
  pagesOf : Task → List Nat
  raw : List Nat
  owner : SlotName → Obj → Option (Option Task)

inductive MemLabel (Task : Type)
  /-- Other code calls `alloc_page`, or `free_page` with a page that it has. -/
  | allocPage
  | freePage (p : Nat)
  /-- A task, or other code, writes to a page that it has. -/
  | store (holder : Option Task) (p : Nat) (content : Nat → Chunk SlotName)
  /-- Other code calls `alloc_name`, or `free_name` with an object that it has. -/
  | alloc (name : SlotName)
  | free (name : SlotName) (obj : Obj)
  /-- A task gets its `mm_struct`. -/
  | mmInit (t : Task)
  | allocPageForTask (t : Task)
  | freePageForTask (t : Task) (p : Nat)
  /-- A task gets a vma, or gives one back. -/
  | allocVma (t : Task)
  | freeVma (t : Task) (vma : Obj)
  | cleanMmSource (t : Task)

variable {Task : Type} [DecidableEq Task]

abbrev Owner (Task : Type) := SlotName → Obj → Option (Option Task)

def Owner.set (owner : Owner Task) (name : SlotName) (obj : Obj) (holder : Option (Option Task)) :
    Owner Task :=
  update owner name (update (owner name) obj holder)

namespace MemState

def setOwner (state : MemState Task) (name : SlotName) (obj : Obj)
    (holder : Option (Option Task)) : MemState Task :=
  { state with owner := Owner.set state.owner name obj holder }

def setPages (state : MemState Task) (pages : Pages Task (Nat → Chunk SlotName)) :
    MemState Task :=
  { state with mem := { state.mem with pages := pages } }

def mmInit (defs : SlotDefs SlotName) (state : MemState Task) (t : Task) :
    Except MemFault (MemState Task) := do
  let (obj, mem) ← state.mem.allocSlot defs .mmStructSlot
  let state := { state with
    mem := mem
    mm := update state.mm t (some obj)
    vmas := update state.vmas t []
    pagesOf := update state.pagesOf t [] }
  let links := Util.listInit state.mem.pages.links (.head (some t))
  .ok ((state.setPages { state.mem.pages with links := links }).setOwner .mmStructSlot obj
    (some (some t)))

def freeVmas (mem : Memory Task SlotName) (vmas : List Obj) :
    Except MemFault (Memory Task SlotName) :=
  vmas.foldlM Memory.freeSlot mem

def disown (state : MemState Task) (t : Task) : SlotName → Obj → Option (Option Task) :=
  fun name obj => if state.owner name obj = some (some t) then none else state.owner name obj

def cleanMmSource (state : MemState Task) (t : Task) : Except MemFault (MemState Task) := do
  let mm ← follow (state.mm t)
  let pages ← state.mem.pages.cleanPages t
  let mem ← freeVmas { state.mem with pages := pages } (state.vmas t)
  let mem ← mem.freeSlot mm
  .ok { state with
    mem := mem
    mm := update state.mm t none
    vmas := update state.vmas t []
    pagesOf := update state.pagesOf t []
    owner := state.disown t }

def held (state : MemState Task) : Option Task → List Nat
  | none => state.raw
  | some t => state.pagesOf t

def act (defs : SlotDefs SlotName) (state : MemState Task) :
    MemLabel Task → Option (Except MemFault (MemState Task))
  | .allocPage => some do
      let (p, pages) ← state.mem.pages.allocPage Memory.zeroPage
      .ok { state.setPages pages with raw := p :: state.raw }
  | .freePage p =>
    if p ∈ state.raw then some do
      let pages ← state.mem.pages.freePage p
      .ok { state.setPages pages with raw := state.raw.erase p }
    else none
  | .store holder p content =>
    if p ∈ state.held holder then
      some (.ok (state.setPages { state.mem.pages with
        content := update state.mem.pages.content p content }))
    else none
  | .alloc name => some do
      let (obj, mem) ← state.mem.allocSlot defs name
      .ok ({ state with mem := mem }.setOwner name obj (some none))
  | .free name obj =>
    if state.owner name obj = some none then some do
      let mem ← state.mem.freeSlot obj
      .ok ({ state with mem := mem }.setOwner name obj none)
    else none
  | .mmInit t => if state.mm t = none then some (state.mmInit defs t) else none
  | .allocPageForTask t =>
    if state.mm t = none then none
    else some do
      let (p, pages) ← state.mem.pages.allocPageForTask Memory.zeroPage t
      .ok { state.setPages pages with
        pagesOf := update state.pagesOf t (state.pagesOf t ++ [p]) }
  | .freePageForTask t p =>
    if p ∈ state.pagesOf t then some do
      let pages ← state.mem.pages.freePageForTask p
      .ok { state.setPages pages with
        pagesOf := update state.pagesOf t ((state.pagesOf t).erase p) }
    else none
  | .allocVma t =>
    if state.mm t = none then none
    else some do
      let (obj, mem) ← state.mem.allocSlot defs .vmaSlot
      .ok ({ state with
        mem := mem
        vmas := update state.vmas t (state.vmas t ++ [obj]) }.setOwner .vmaSlot obj
          (some (some t)))
  | .freeVma t vma =>
    if vma ∈ state.vmas t then some do
      let mem ← state.mem.freeSlot vma
      .ok ({ state with
        mem := mem
        vmas := update state.vmas t ((state.vmas t).erase vma) }.setOwner .vmaSlot vma
          none)
    else none
  | .cleanMmSource t => if state.mm t = none then none else some (state.cleanMmSource t)

/-- Before `init_memory` has run there are no tasks, and the slots are zero. -/
def boot (pages : Pages Task (Nat → Chunk SlotName)) : MemState Task where
  mem := ⟨pages, fun _ _ => ⟨0, none⟩⟩
  mm _ := none
  vmas _ := []
  pagesOf _ := []
  raw := []
  owner _ _ := none

end MemState

/-- The memory from the state that `init_memory` leaves, for a kernel that ends at `stop`. -/
def memMachine (Task : Type) [DecidableEq Task] (defs : SlotDefs SlotName) (stop : Nat) :
    Machine (MemState Task) (MemLabel Task) where
  Initial state := ∃ content pages,
    (Pages.static content).initMemory stop = .ok pages ∧ state = .boot pages
  step state label := (state.act defs label).bind Except.toOption

end Tnix.Mem
