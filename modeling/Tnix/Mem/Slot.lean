import Tnix.Mem.Alloc

/-! # `slot.c`

The allocators that `slot_define` makes. An allocator has an array of slots, and a slot has a
page of chunks while at least one of them is in use. A chunk is named by its page and its
index. -/

namespace Tnix.Mem

/-- The arguments of each `slot_define`: its name, the number of slots and
`sizeof(struct chunk_name)`. There is room for a chunk in a page. -/
structure SlotDefs (Name : Type) where
  label : Name → String
  num : Name → Nat
  size : Name → Nat
  num_pos : ∀ name, 0 < num name
  chunks_pos : ∀ name, 0 < PGSIZE / size name

namespace SlotDefs

variable {Name : Type}

def chunks (defs : SlotDefs Name) (name : Name) : Nat := PGSIZE / defs.size name

/-- `name[i].next`, as `init_slot` sets it. -/
def next (defs : SlotDefs Name) (name : Name) (i : Nat) : Option Nat :=
  if i + 1 < defs.num name then some (i + 1) else none

end SlotDefs

/-- `struct chunk_name` without the object: `belong` is a pointer to a slot. -/
structure Chunk (Name : Type) where
  belong : Option (Name × Nat)
  inuse : Bool

/-- `struct name`: the page of its chunks, if there is one, and how many are in use. -/
structure Slot where
  refc : UInt32
  slot : Option Nat

/-- The pages, with what a slot allocator finds in them, and the slots. -/
structure Memory (Task Name : Type) where
  pages : Pages Task (Nat → Chunk Name)
  slots : Name → Nat → Slot

abbrev Obj := Nat × Nat

variable {Task Name : Type} [DecidableEq Task] [DecidableEq Name]

namespace Memory

def zeroPage : Nat → Chunk Name := fun _ => ⟨none, false⟩

def setSlot (mem : Memory Task Name) (name : Name) (cur : Nat) (slot : Slot) : Memory Task Name :=
  { mem with slots := Function.update mem.slots name (Function.update (mem.slots name) cur slot) }

def setChunk (mem : Memory Task Name) (obj : Obj) (chunk : Chunk Name) : Memory Task Name :=
  { mem with
    pages := { mem.pages with
      content := Function.update mem.pages.content obj.1
        (Function.update (mem.pages.content obj.1) obj.2 chunk) } }

inductive Turn
  | found (obj : Obj)
  /-- To the next slot. -/
  | full
  /-- To the same slot. -/
  | again

/-- `if (cur->refc == 0)`, a page for the chunks. -/
def pageFor (mem : Memory Task Name) (name : Name) (cur : Nat) :
    Except MemFault (Memory Task Name) := do
  let slot := mem.slots name cur
  if slot.refc = 0 then
    let (p, pages) ← mem.pages.allocPage zeroPage
    .ok ({ mem with pages := pages }.setSlot name cur { slot with slot := some p })
  else .ok mem

/-- A chunk that is not in use is taken. -/
def takeChunk (mem : Memory Task Name) (name : Name) (cur : Nat) (obj : Obj) :
    Memory Task Name :=
  let slot := mem.slots name cur
  (mem.setSlot name cur { slot with refc := slot.refc + 1 }).setChunk obj ⟨some (name, cur), true⟩

/-- One turn of the loop of `alloc_name`. -/
def allocTurn (defs : SlotDefs Name) (mem : Memory Task Name) (name : Name) (cur : Nat) :
    Except MemFault (Turn × Memory Task Name) := do
  let mem ← mem.pageFor name cur
  let slot := mem.slots name cur
  if slot.refc.toNat = defs.chunks name then .ok (.full, mem)
  else
    let p ← follow slot.slot
    match (List.range (defs.chunks name)).find? fun i => !(mem.pages.content p i).inuse with
    | some i => .ok (.found (p, i), mem.takeChunk name cur (p, i))
    | none => .ok (.again, mem)

def allocSlotFrom (defs : SlotDefs Name) (name : Name) : Nat → Option Nat → Memory Task Name →
    Except MemFault (Obj × Memory Task Name)
  | 0, _, _ => .error .endless
  | _ + 1, none, _ => .error (.panic ("alloc_" ++ defs.label name ++ ": slot exhausted"))
  | fuel + 1, some cur, mem => do
    let (turn, mem) ← mem.allocTurn defs name cur
    match turn with
    | .found obj => .ok (obj, mem)
    | .full => allocSlotFrom defs name fuel (defs.next name cur) mem
    | .again => allocSlotFrom defs name fuel (some cur) mem

/-- `alloc_name`, with a turn for each slot and one for the end of the slots. -/
def allocSlot (defs : SlotDefs Name) (mem : Memory Task Name) (name : Name) :
    Except MemFault (Obj × Memory Task Name) :=
  allocSlotFrom defs name (defs.num name + 1) (some 0) mem

/-- `free_name`. -/
def freeSlot (mem : Memory Task Name) (obj : Obj) : Except MemFault (Memory Task Name) := do
  let chunk := mem.pages.content obj.1 obj.2
  let (name, cur) ← follow chunk.belong
  let mem := mem.setChunk obj { chunk with inuse := false }
  let slot := mem.slots name cur
  let mem := mem.setSlot name cur { slot with refc := slot.refc - 1 }
  if slot.refc - 1 = 0 then do
    let p ← follow slot.slot
    let pages ← mem.pages.freePage p
    .ok ({ mem with pages := pages }.setSlot name cur ⟨slot.refc - 1, none⟩)
  else .ok mem

end Memory
end Tnix.Mem
