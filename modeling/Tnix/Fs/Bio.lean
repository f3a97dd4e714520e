import Tnix.Foundation.Machine
import Tnix.Fs.Layout

/-! # The block cache

`bio.c` as a machine over any number of tasks. Every critical section of
`bcache.lock` is one step, the sleep lock of a buffer is taken and dropped in
steps of their own, and `disk_read` and `disk_write` are synchronous transfers
of one block. -/

namespace Tnix.Fs

open Function

/-- `struct buf`. The sleep lock is its holder; `refc` counts one for each task
at most, so it stays far below the width of the field. -/
structure Buf (Task : Type) where
  dev : UInt32
  refc : Nat
  blockno : UInt32
  valid : Bool
  lock : Option Task
  data : Block

inductive BioPc
  /-- Outside, possibly holding buffers. -/
  | idle
  /-- In `bget`, with its reference, before `sleep_get`. -/
  | bget (index : Fin NIOBUF) (dev blockno : UInt32)
  /-- In `bread`, with the sleep lock, before the test of `valid`. -/
  | bread (index : Fin NIOBUF) (dev blockno : UInt32)
  /-- In `bread`, after `disk_read`. -/
  | filled (index : Fin NIOBUF) (dev blockno : UInt32)
  /-- `bread(dev, blockno)` has just returned the buffer. -/
  | returned (index : Fin NIOBUF) (dev blockno : UInt32)
  /-- In `bzero`, before its `bwrite`. -/
  | bzero (index : Fin NIOBUF)
  /-- In `brelse`, after `sleep_put`. -/
  | brelse (index : Fin NIOBUF)

/-- `head` lists the buffers from `head.next` to `head.prev`. `unwritten` is a
history variable: the data was changed after the last `bwrite`. -/
structure Bcache (Task : Type) where
  bufs : Fin NIOBUF → Buf Task
  head : List (Fin NIOBUF)
  disk : UInt32 → UInt32 → Block
  pc : Task → BioPc
  unwritten : Fin NIOBUF → Bool

namespace Bcache

inductive Label (Task : Type)
  | bget (task : Task) (dev blockno : UInt32)
  | sleepGet (task : Task)
  | bread (task : Task)
  | setValid (task : Task)
  | resume (task : Task)
  | modify (task : Task) (index : Fin NIOBUF) (data : Block)
  | bwrite (task : Task) (index : Fin NIOBUF)
  | bzero (task : Task) (index : Fin NIOBUF)
  | bzeroWrite (task : Task)
  | brelse (task : Task) (index : Fin NIOBUF)
  | brelseDrop (task : Task)

variable {Task : Type}

def setBuf (state : Bcache Task) (index : Fin NIOBUF) (buf : Buf Task) : Bcache Task :=
  { state with bufs := update state.bufs index buf }

def setPc [DecidableEq Task] (state : Bcache Task) (task : Task) (pc : BioPc) : Bcache Task :=
  { state with pc := update state.pc task pc }

section
variable (state : Bcache Task)
include state

@[simp] theorem setBuf_same (index : Fin NIOBUF) (buf : Buf Task) :
    (state.setBuf index buf).bufs index = buf := by
  simp [setBuf]

@[simp] theorem setBuf_other {index other : Fin NIOBUF}
    (buf : Buf Task) (different : other ≠ index) :
    (state.setBuf index buf).bufs other = state.bufs other := by
  simp [setBuf, different]

@[simp] theorem setBuf_rest (index : Fin NIOBUF) (buf : Buf Task) :
    (state.setBuf index buf).head = state.head ∧ (state.setBuf index buf).disk = state.disk ∧
      (state.setBuf index buf).pc = state.pc ∧
      (state.setBuf index buf).unwritten = state.unwritten := ⟨rfl, rfl, rfl, rfl⟩

@[simp] theorem setPc_pc [DecidableEq Task] (task : Task) (pc : BioPc) :
    (state.setPc task pc).pc = update state.pc task pc := rfl

@[simp] theorem setPc_rest [DecidableEq Task] (task : Task) (pc : BioPc) :
    (state.setPc task pc).head = state.head ∧ (state.setPc task pc).disk = state.disk ∧
      (state.setPc task pc).bufs = state.bufs ∧
      (state.setPc task pc).unwritten = state.unwritten := ⟨rfl, rfl, rfl, rfl⟩

end

/-- The first buffer from the front that carries the key. -/
def hit (state : Bcache Task) (dev blockno : UInt32) : Option (Fin NIOBUF) :=
  state.head.find? fun index =>
    (state.bufs index).dev = dev ∧ (state.bufs index).blockno = blockno

/-- The first buffer from the back that nobody references. -/
def victim (state : Bcache Task) : Option (Fin NIOBUF) :=
  state.head.reverse.find? fun index => (state.bufs index).refc = 0

/-- The critical section of `bget`; `none` is the panic of an exhausted cache. -/
def bget (state : Bcache Task) (dev blockno : UInt32) :
    Option (Fin NIOBUF × Bcache Task) :=
  match state.hit dev blockno with
  | some index =>
    let buf := state.bufs index
    some (index, state.setBuf index { buf with refc := buf.refc + 1 })
  | none =>
    match state.victim with
    | some index =>
      let buf := state.bufs index
      some (index, state.setBuf index
        { buf with refc := 1, dev := dev, blockno := blockno, valid := false })
    | none => none

def diskWrite (state : Bcache Task) (index : Fin NIOBUF) : Bcache Task :=
  let buf := state.bufs index
  { state with
    disk := update state.disk buf.dev
      (update (state.disk buf.dev) buf.blockno buf.data)
    unwritten := update state.unwritten index false }

def moveFront (state : Bcache Task) (index : Fin NIOBUF) : Bcache Task :=
  { state with head := index :: state.head.erase index }

/-- The critical section of `brelse`. -/
def brelseDrop (state : Bcache Task) (index : Fin NIOBUF) : Bcache Task :=
  let buf := state.bufs index
  let dropped := state.setBuf index { buf with refc := buf.refc - 1 }
  if buf.refc - 1 = 0 then dropped.moveFront index else dropped

variable (state : Bcache Task)

variable (index : Fin NIOBUF)

@[simp] theorem brelseDrop_bufs : (state.brelseDrop index).bufs = (state.setBuf index
      { state.bufs index with refc := (state.bufs index).refc - 1 }).bufs := by
  simp only [brelseDrop]
  split <;> rfl

@[simp] theorem brelseDrop_head :
    (state.brelseDrop index).head = if (state.bufs index).refc - 1 = 0 then
      index :: state.head.erase index else state.head := by
  simp only [brelseDrop]
  split <;> rfl

@[simp] theorem brelseDrop_rest : (state.brelseDrop index).disk = state.disk ∧
      (state.brelseDrop index).pc = state.pc ∧
      (state.brelseDrop index).unwritten = state.unwritten := by
  simp only [brelseDrop]
  split <;> exact ⟨rfl, rfl, rfl⟩

def step [DecidableEq Task] (state : Bcache Task) : Label Task → Option (Bcache Task)
  | .bget task dev blockno =>
    match state.pc task with
    | .idle =>
      (state.bget dev blockno).map fun found =>
        found.2.setPc task (.bget found.1 dev blockno)
    | _ => none
  | .sleepGet task =>
    match state.pc task with
    | .bget index dev blockno =>
      -- A holder that asks again panics; any other task waits.
      if (state.bufs index).lock = none then
        some ((state.setBuf index
          { state.bufs index with lock := some task }).setPc task
            (.bread index dev blockno))
      else none
    | _ => none
  | .bread task =>
    match state.pc task with
    | .bread index dev blockno =>
      let buf := state.bufs index
      if buf.valid then some (state.setPc task (.returned index dev blockno))
      else some ((state.setBuf index
        { buf with data := state.disk buf.dev buf.blockno }).setPc task
          (.filled index dev blockno))
    | _ => none
  | .setValid task =>
    match state.pc task with
    | .filled index dev blockno =>
      some ((state.setBuf index { state.bufs index with valid := true }).setPc task
        (.returned index dev blockno))
    | _ => none
  | .resume task =>
    match state.pc task with
    | .returned _ _ _ => some (state.setPc task .idle)
    | _ => none
  | .modify task index data =>
    match state.pc task with
    | .idle =>
      if (state.bufs index).lock = some task then
        some { state.setBuf index { state.bufs index with data := data } with
          unwritten := update state.unwritten index true }
      else none
    | _ => none
  | .bwrite task index =>
    match state.pc task with
    | .idle =>
      if (state.bufs index).lock = some task then some (state.diskWrite index)
      else none
    | _ => none
  | .bzero task index =>
    match state.pc task with
    | .idle =>
      if (state.bufs index).lock = some task then
        some { (state.setBuf index
          { state.bufs index with data := 0#8192 }).setPc
            task (.bzero index) with
          unwritten := update state.unwritten index true }
      else none
    | _ => none
  | .bzeroWrite task =>
    match state.pc task with
    | .bzero index =>
      if (state.bufs index).lock = some task then
        some ((state.diskWrite index).setPc task .idle)
      else none
    | _ => none
  | .brelse task index =>
    match state.pc task with
    | .idle =>
      if (state.bufs index).lock = some task then
        some ((state.setBuf index { state.bufs index with lock := none }).setPc task
          (.brelse index))
      else none
    | _ => none
  | .brelseDrop task =>
    match state.pc task with
    | .brelse index => some ((state.brelseDrop index).setPc task .idle)
    | _ => none

inductive Transition [DecidableEq Task] (state : Bcache Task) :
    Label Task → Bcache Task → Prop
  | bgetHit {task dev blockno index} (pc : state.pc task = .idle)
      (found : state.hit dev blockno = some index) :
      Transition state (.bget task dev blockno) ((state.setBuf index
        { state.bufs index with refc := (state.bufs index).refc + 1 }).setPc task
          (.bget index dev blockno))
  | bgetMiss {task dev blockno index} (pc : state.pc task = .idle)
      (absent : state.hit dev blockno = none) (unused : state.victim = some index) :
      Transition state (.bget task dev blockno) ((state.setBuf index
        { state.bufs index with
          refc := 1, dev := dev, blockno := blockno, valid := false }).setPc task
            (.bget index dev blockno))
  | sleepGet {task dev blockno index} (pc : state.pc task = .bget index dev blockno)
      (free : (state.bufs index).lock = none) :
      Transition state (.sleepGet task) ((state.setBuf index
        { state.bufs index with lock := some task }).setPc task
          (.bread index dev blockno))
  | breadValid {task dev blockno index} (pc : state.pc task = .bread index dev blockno)
      (valid : (state.bufs index).valid = true) :
      Transition state (.bread task) (state.setPc task (.returned index dev blockno))
  | breadFill {task dev blockno index} (pc : state.pc task = .bread index dev blockno) :
      Transition state (.bread task) ((state.setBuf index { state.bufs index with
        data := state.disk (state.bufs index).dev (state.bufs index).blockno }).setPc task
          (.filled index dev blockno))
  | setValid {task dev blockno index} (pc : state.pc task = .filled index dev blockno) :
      Transition state (.setValid task) ((state.setBuf index
        { state.bufs index with valid := true }).setPc task (.returned index dev blockno))
  | resume {task dev blockno index} (pc : state.pc task = .returned index dev blockno) :
      Transition state (.resume task) (state.setPc task .idle)
  | modify {task index data} (pc : state.pc task = .idle)
      (lock : (state.bufs index).lock = some task) :
      Transition state (.modify task index data)
        { (state.setBuf index { state.bufs index with data := data }).setPc task .idle with
          unwritten := update state.unwritten index true }
  | bwrite {task index} (pc : state.pc task = .idle)
      (lock : (state.bufs index).lock = some task) :
      Transition state (.bwrite task index) ((state.diskWrite index).setPc task .idle)
  | bzero {task index} (pc : state.pc task = .idle)
      (lock : (state.bufs index).lock = some task) :
      Transition state (.bzero task index)
        { (state.setBuf index
          { state.bufs index with data := 0#8192 }).setPc
            task (.bzero index) with
          unwritten := update state.unwritten index true }
  | bzeroWrite {task index} (pc : state.pc task = .bzero index)
      (lock : (state.bufs index).lock = some task) :
      Transition state (.bzeroWrite task) ((state.diskWrite index).setPc task .idle)
  | brelse {task index} (pc : state.pc task = .idle)
      (lock : (state.bufs index).lock = some task) :
      Transition state (.brelse task index) ((state.setBuf index
        { state.bufs index with lock := none }).setPc task (.brelse index))
  | brelseDrop {task index} (pc : state.pc task = .brelse index) :
      Transition state (.brelseDrop task) ((state.brelseDrop index).setPc task .idle)

theorem setPc_self [DecidableEq Task] {task : Task} {pc : BioPc}
    (same : state.pc task = pc) : state.setPc task pc = state := by
  simp [setPc, ← same]

theorem transition_of_step [DecidableEq Task] {state next : Bcache Task}
    {label : Label Task} (taken : state.step label = some next) :
    Transition state label next := by
  cases label with
  | bget task dev blockno =>
    simp only [step, bget] at taken
    split at taken
    case h_2 => cases taken
    case h_1 pc =>
      cases found : state.hit dev blockno with
      | some index =>
        simp only [found, Option.map_some, Option.some.injEq] at taken
        exact taken ▸ .bgetHit pc found
      | none =>
        cases unused : state.victim with
        | some index =>
          simp only [found, unused, Option.map_some, Option.some.injEq] at taken
          exact taken ▸ .bgetMiss pc found unused
        | none => simp [found, unused] at taken
  | sleepGet task =>
    simp only [step] at taken
    split at taken
    case h_2 => cases taken
    case h_1 index dev blockno pc =>
      rcases Option.ite_none_right_eq_some.mp taken with ⟨free, ⟨⟩⟩
      exact .sleepGet pc free
  | bread task =>
    simp only [step] at taken
    split at taken
    case h_2 => cases taken
    case h_1 index dev blockno pc =>
      split at taken
      case isTrue valid => exact Option.some.inj taken ▸ .breadValid pc valid
      case isFalse => exact Option.some.inj taken ▸ .breadFill pc
  | setValid task =>
    simp only [step] at taken
    split at taken
    case h_1 index dev blockno pc => exact Option.some.inj taken ▸ .setValid pc
    case h_2 => cases taken
  | resume task =>
    simp only [step] at taken
    split at taken
    case h_1 index dev blockno pc => exact Option.some.inj taken ▸ .resume pc
    case h_2 => cases taken
  | modify task index data =>
    simp only [step] at taken
    split at taken
    case h_2 => cases taken
    case h_1 pc =>
      split at taken
      case isTrue lock =>
        have moved : Transition state (.modify task index data) _ := .modify pc lock
        rwa [setPc_self _ (by exact pc), Option.some.inj taken] at moved
      case isFalse => cases taken
  | bwrite task index =>
    simp only [step] at taken
    split at taken
    case h_2 => cases taken
    case h_1 pc =>
      split at taken
      case isTrue lock =>
        have moved := Transition.bwrite pc lock
        rwa [setPc_self _ (by exact pc), Option.some.inj taken] at moved
      case isFalse => cases taken
  | bzero task index =>
    simp only [step] at taken
    split at taken
    case h_2 => cases taken
    case h_1 pc =>
      rcases Option.ite_none_right_eq_some.mp taken with ⟨lock, ⟨⟩⟩
      exact .bzero pc lock
  | bzeroWrite task =>
    simp only [step] at taken
    split at taken
    case h_2 => cases taken
    case h_1 index pc =>
      rcases Option.ite_none_right_eq_some.mp taken with ⟨lock, ⟨⟩⟩
      exact .bzeroWrite pc lock
  | brelse task index =>
    simp only [step] at taken
    split at taken
    case h_2 => cases taken
    case h_1 pc =>
      rcases Option.ite_none_right_eq_some.mp taken with ⟨lock, ⟨⟩⟩
      exact .brelse pc lock
  | brelseDrop task =>
    simp only [step] at taken
    split at taken
    case h_1 index pc => exact Option.some.inj taken ▸ .brelseDrop pc
    case h_2 => cases taken

/-- The state left by `init_bcache`, over any disk and any buffer contents. -/
def machine (Task : Type) [DecidableEq Task] : Machine (Bcache Task) (Label Task) where
  Initial state :=
    (∀ index, (state.bufs index).dev = 0 ∧ (state.bufs index).blockno = 0 ∧
      (state.bufs index).refc = 0 ∧ (state.bufs index).valid = false ∧
      (state.bufs index).lock = none) ∧
    state.head = List.finRange NIOBUF ∧
    state.pc = (fun _ => .idle) ∧
    state.unwritten = fun _ => false
  step := step

/-- Every holder that changes data calls `bwrite` before `brelse`. -/
def WritesBack (state : Bcache Task) : Label Task → Prop
  | .brelse _ index => state.unwritten index = false
  | _ => True

instance (state : Bcache Task) (label : Label Task) : Decidable (WritesBack state label) :=
  match label with
  | .brelse _ index => inferInstanceAs (Decidable (state.unwritten index = false))
  | .bget .. | .sleepGet _ | .bread _ | .setValid _ | .resume _ | .modify .. | .bwrite ..
  | .bzero .. | .bzeroWrite _ | .brelseDrop _ => .isTrue trivial

end Bcache
end Tnix.Fs
