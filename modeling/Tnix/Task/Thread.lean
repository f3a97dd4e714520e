import Tnix.Config
import Tnix.Foundation.Machine

/-! # Kernel threads: `sleep`, `wakeup`, `yield` and the scheduler

`sche.c` as a machine over `count` task slots that run a client program. The scheduler loops of
all CPUs appear through the task lock they are holding. -/

namespace Tnix.Task

inductive TaskState
  | FREE
  | INIT
  | READY
  | RUN
  | SLEEP
  | EXIT
  deriving DecidableEq, Repr

/-- What client code does next; `next` is where it goes on. -/
inductive Action (Lock Chan Position : Type)
  | goto (next : Position)
  | spinGet (lock : Lock) (next : Position)
  | spinPut (lock : Lock) (next : Position)
  | sleep (chan : Chan) (lock : Option Lock) (next : Position)
  | wakeup (chan : Chan) (next : Position)
  | yield (next : Position)

/-- Client code: from a position it changes the shared data and acts. The input
resolves its choices. -/
structure Program (Lock Chan Shared Position Input : Type) where
  start : Position
  step : Shared → Position → Input → Option (Shared × Action Lock Chan Position)

/-- What a task does when it is switched to again. -/
inductive After (Lock Position : Type)
  /-- In `sleep`, before `t->chan = NULL`. -/
  | sleep (lock : Option Lock) (next : Position)
  /-- In `yield` or `first_sched`, before `spin_put(&t->lock)`. -/
  | yield (next : Position)

inductive Pc (count : Nat) (Lock Chan Position : Type)
  | run (here : Position)
  | spinGet (lock : Lock) (next : Position)
  | spinPut (lock : Lock) (next : Position)
  /-- `sleep`: `spin_get(&t->lock)`. -/
  | sleepGet (chan : Chan) (lock : Option Lock) (next : Position)
  /-- `sleep`: `spin_put(lock)`. -/
  | sleepPut (chan : Chan) (lock : Option Lock) (next : Position)
  /-- `sleep`: `t->chan = chan`. -/
  | sleepChan (chan : Chan) (lock : Option Lock) (next : Position)
  /-- `sleep`: `t->state = SLEEP`. -/
  | sleepState (chan : Chan) (lock : Option Lock) (next : Position)
  /-- `sleep`, back from the scheduler: `t->chan = NULL`. -/
  | chanNull (lock : Option Lock) (next : Position)
  /-- `spin_put(&t->lock)`, in `sleep` then `spin_get(lock)`. -/
  | putTask (lock : Option Lock) (next : Position)
  /-- `yield`: `spin_get(&t->lock)`. -/
  | yieldGet (next : Position)
  /-- `yield`: `t->state = READY`. -/
  | yieldState (next : Position)
  /-- `context_switch` to the scheduler. -/
  | switch (after : After Lock Position)
  /-- Switched out. -/
  | off (after : After Lock Position)
  /-- `wakeup`: the loop test, then `spin_get` of the slot's lock. -/
  | wakeupGet (chan : Chan) (index : Nat) (next : Position)
  /-- `wakeup`: the test of `state` and `chan`. -/
  | wakeupTest (chan : Chan) (index : Fin count) (next : Position)
  /-- `wakeup`: `spin_put` of the slot's lock. -/
  | wakeupPut (chan : Chan) (index : Fin count) (next : Position)

inductive Holder (count : Nat)
  | task (holder : Fin count)
  /-- A scheduler that has just taken it, before the test of `state`. -/
  | schedTest
  /-- A scheduler that is about to put it. -/
  | schedPut
  deriving DecidableEq

structure Threads (count : Nat) (Lock Chan Shared Position : Type) where
  shared : Shared
  locks : Lock → Option (Fin count)
  state : Fin count → TaskState
  chan : Fin count → Option Chan
  lock : Fin count → Option (Holder count)
  pc : Fin count → Pc count Lock Chan Position

variable {count : Nat} {Lock Chan Shared Position Input : Type}

@[simp] def Action.entry : Action Lock Chan Position → Pc count Lock Chan Position
  | .goto next => .run next
  | .spinGet lock next => .spinGet lock next
  | .spinPut lock next => .spinPut lock next
  | .sleep chan lock next => .sleepGet chan lock next
  | .wakeup chan next => .wakeupGet chan 0 next
  | .yield next => .yieldGet next

/-- Where a task goes on when the scheduler switches to it. -/
@[simp] def After.entry : After Lock Position → Pc count Lock Chan Position
  | .sleep lock next => .chanNull lock next
  | .yield next => .putTask none next

/-- `if (lock) spin_get(lock)` at the end of `sleep`. -/
def Pc.regain (lock : Option Lock) (next : Position) : Pc count Lock Chan Position :=
  match lock with
  | some lock => .spinGet lock next
  | none => .run next

namespace Threads

inductive Label (count : Nat) (Input : Type)
  /-- A step of client code. -/
  | client (task : Fin count) (input : Input)
  /-- The next step of a task inside `sleep`, `wakeup`, `yield` or a spin lock. -/
  | advance (task : Fin count)
  /-- The next step of a scheduler at the task's slot. -/
  | schedule (task : Fin count)

@[simp] def setPc (threads : Threads count Lock Chan Shared Position) (task : Fin count)
    (pc : Pc count Lock Chan Position) : Threads count Lock Chan Shared Position :=
  { threads with pc := Function.update threads.pc task pc }

@[simp] def setLock (threads : Threads count Lock Chan Shared Position) (task : Fin count)
    (holder : Option (Holder count)) : Threads count Lock Chan Shared Position :=
  { threads with lock := Function.update threads.lock task holder }

@[simp] def setState (threads : Threads count Lock Chan Shared Position) (task : Fin count)
    (state : TaskState) : Threads count Lock Chan Shared Position :=
  { threads with state := Function.update threads.state task state }

@[simp] def setChan (threads : Threads count Lock Chan Shared Position) (task : Fin count)
    (chan : Option Chan) : Threads count Lock Chan Shared Position :=
  { threads with chan := Function.update threads.chan task chan }

variable [DecidableEq Lock]

@[simp] def setLocks (threads : Threads count Lock Chan Shared Position) (lock : Lock)
    (holder : Option (Fin count)) : Threads count Lock Chan Shared Position :=
  { threads with locks := Function.update threads.locks lock holder }

section
variable {threads : Threads count Lock Chan Shared Position} {task : Fin count}

omit [DecidableEq Lock] in
theorem setLock_others {slot : Fin count} {holder : Option (Holder count)}
    (was : ∀ other, other ≠ task → threads.lock slot ≠ some (.task other)) :
    ∀ index other, other ≠ task → threads.lock index = some (.task other) →
      (threads.setLock slot holder).lock index = some (.task other) := by
  intro index other different held
  have differentSlot : index ≠ slot := by
    rintro rfl
    exact was other different held
  simpa [differentSlot] using held

theorem setLocks_others {lock : Lock} {holder : Option (Fin count)}
    (was : ∀ other, other ≠ task → threads.locks lock ≠ some other) :
    ∀ name other, other ≠ task → threads.locks name = some other →
      (threads.setLocks lock holder).locks name = some other := by
  intro name other different held
  have differentLock : name ≠ lock := by
    rintro rfl
    exact was other different held
  simpa [differentLock] using held

end

variable [DecidableEq Chan]

def advance (threads : Threads count Lock Chan Shared Position) (task : Fin count) :
    Option (Threads count Lock Chan Shared Position) :=
  match threads.pc task with
  | .run _ => none
  | .off _ => none
  | .spinGet lock next =>
    if threads.locks lock = none then
      some ((threads.setLocks lock (some task)).setPc task (.run next))
    else none
  | .spinPut lock next =>
    if threads.locks lock = some task then
      some ((threads.setLocks lock none).setPc task (.run next))
    else none
  | .sleepGet chan lock next =>
    if threads.lock task = none then
      some ((threads.setLock task (some (.task task))).setPc task
        (.sleepPut chan lock next))
    else none
  | .sleepPut chan none next => some (threads.setPc task (.sleepChan chan none next))
  | .sleepPut chan (some lock) next =>
    if threads.locks lock = some task then
      some ((threads.setLocks lock none).setPc task (.sleepChan chan (some lock) next))
    else none
  | .sleepChan chan lock next =>
    some ((threads.setChan task (some chan)).setPc task (.sleepState chan lock next))
  | .sleepState _ lock next =>
    some ((threads.setState task .SLEEP).setPc task (.switch (.sleep lock next)))
  | .yieldGet next =>
    if threads.lock task = none then
      some ((threads.setLock task (some (.task task))).setPc task (.yieldState next))
    else none
  | .yieldState next =>
    some ((threads.setState task .READY).setPc task (.switch (.yield next)))
  | .switch after =>
    if threads.lock task = some (.task task) then
      some ((threads.setLock task (some .schedPut)).setPc task (.off after))
    else none
  | .chanNull lock next => some ((threads.setChan task none).setPc task (.putTask lock next))
  | .putTask lock next =>
    if threads.lock task = some (.task task) then
      some ((threads.setLock task none).setPc task (.regain lock next))
    else none
  | .wakeupGet chan index next =>
    if inRange : index < count then
      if index = task then some (threads.setPc task (.wakeupGet chan (index + 1) next))
      else if threads.lock ⟨index, inRange⟩ = none then
        some ((threads.setLock ⟨index, inRange⟩ (some (.task task))).setPc task
          (.wakeupTest chan ⟨index, inRange⟩ next))
      else none
    else some (threads.setPc task (.run next))
  | .wakeupTest chan index next =>
    if threads.state index = .SLEEP ∧ threads.chan index = some chan then
      some ((threads.setState index .READY).setPc task (.wakeupPut chan index next))
    else some (threads.setPc task (.wakeupPut chan index next))
  | .wakeupPut chan index next =>
    if threads.lock index = some (.task task) then
      some ((threads.setLock index none).setPc task (.wakeupGet chan (index + 1) next))
    else none

def schedule (threads : Threads count Lock Chan Shared Position) (task : Fin count) :
    Option (Threads count Lock Chan Shared Position) :=
  match threads.lock task with
  | none => some (threads.setLock task (some .schedTest))
  | some .schedTest =>
    if threads.state task = .READY then
      match threads.pc task with
      | .off after =>
        some (((threads.setState task .RUN).setLock task (some (.task task))).setPc task
          after.entry)
      | _ => none
    else some (threads.setLock task (some .schedPut))
  | some .schedPut => some (threads.setLock task none)
  | some (.task _) => none

def step (program : Program Lock Chan Shared Position Input)
    (threads : Threads count Lock Chan Shared Position) :
    Label count Input → Option (Threads count Lock Chan Shared Position)
  | .client task input =>
    match threads.pc task with
    | .run here =>
      (program.step threads.shared here input).map fun done =>
        { threads with shared := done.1 }.setPc task done.2.entry
    | _ => none
  | .advance task => threads.advance task
  | .schedule task => threads.schedule task

/-- Every task is ready to run its program for the first time. -/
def machine (count : Nat) (program : Program Lock Chan Shared Position Input)
    (InitialShared : Shared → Prop) :
    Machine (Threads count Lock Chan Shared Position) (Label count Input) where
  Initial threads := InitialShared threads.shared ∧
    threads.locks = (fun _ => none) ∧ threads.state = (fun _ => .READY) ∧
    threads.chan = (fun _ => none) ∧ threads.lock = (fun _ => none) ∧
    threads.pc = fun _ => .off (.yield program.start)
  step := step program

/-! ## What client code sees -/

open Function

/-- Where the client code of a task is, or goes on. -/
@[grind] def position : Pc count Lock Chan Position → Position
  | .run here | .spinGet _ here | .spinPut _ here | .sleepGet _ _ here | .sleepPut _ _ here
  | .sleepChan _ _ here | .sleepState _ _ here | .chanNull _ here | .putTask _ here
  | .yieldGet here | .yieldState here | .switch (.sleep _ here) | .switch (.yield here)
  | .off (.sleep _ here) | .off (.yield here) | .wakeupGet _ _ here | .wakeupTest _ _ here
  | .wakeupPut _ _ here => here

def clients (threads : Threads count Lock Chan Shared Position) : Shared × (Fin count → Position) :=
  (threads.shared, position ∘ threads.pc)

variable {threads next : Threads count Lock Chan Shared Position} {task : Fin count}

omit [DecidableEq Lock] [DecidableEq Chan]

theorem clients_eq {pc after : Pc count Lock Chan Position} (isPc : threads.pc task = pc)
    (shared : next.shared = threads.shared) (pcs : next.pc = update threads.pc task after)
    (same : position after = position pc) : next.clients = threads.clients := by
  rw [clients, shared, pcs, comp_update, same, ← isPc]
  exact congrArg _ (update_eq_self task (position ∘ threads.pc))

theorem clients_schedule (taken : threads.schedule task = some next) :
    next.clients = threads.clients := by
  unfold schedule at taken
  repeat' split at taken
  all_goals cases taken
  all_goals first
    | rfl
    | exact clients_eq ‹_› rfl rfl (by cases ‹After Lock Position› <;> rfl)

variable [DecidableEq Lock] [DecidableEq Chan]

theorem clients_advance (taken : threads.advance task = some next) :
    next.clients = threads.clients := by
  unfold advance at taken
  repeat' split at taken
  all_goals cases taken
  all_goals refine clients_eq ‹threads.pc task = _› rfl rfl ?_
  all_goals first
    | rfl
    | (cases ‹Option Lock› <;> rfl)
    | (cases ‹After Lock Position› <;> rfl)

/-- What client code keeps holds in every run: no other step changes what it sees. -/
theorem clients_invariant {program : Program Lock Chan Shared Position Input}
    {InitialShared : Shared → Prop} (Kept : Shared × (Fin count → Position) → Prop)
    (start : ∀ shared, InitialShared shared → Kept (shared, fun _ => program.start))
    (preserved : ∀ state task input shared action, Kept state →
      program.step state.1 (state.2 task) input = some (shared, action) →
      Kept (shared, update state.2 task (position (action.entry : Pc count Lock Chan Position))))
    (reached : (machine count program InitialShared).Reachable threads) : Kept threads.clients := by
  refine reached.invariant (fun threads => Kept threads.clients) ?_ ?_
  · rintro state ⟨isInitial, _, _, _, _, pcs⟩
    rw [clients, pcs]
    exact start _ isInitial
  · intro state label next kept _ taken
    cases label with
    | advance task => exact clients_advance taken ▸ kept
    | schedule task => exact clients_schedule taken ▸ kept
    | client task input =>
      simp only [machine, step] at taken
      split at taken
      case h_1 here isPc =>
        rcases Option.map_eq_some_iff.mp taken with ⟨⟨shared, action⟩, ran, rfl⟩
        have isHere : state.clients.2 task = here := congrArg position isPc
        have moved := preserved _ task input shared action kept (isHere ▸ ran)
        rwa [clients, ← comp_update] at moved
      case h_2 => cases taken

end Threads
end Tnix.Task
