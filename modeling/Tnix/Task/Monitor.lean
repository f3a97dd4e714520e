import Tnix.Task.Thread

/-! # Monitors do not lose wakeups

A client program uses `sleep` and `wakeup` as a monitor on one spin lock, the guard. A task that
sleeps while the guard is free has reason to. -/

namespace Tnix.Task

open Function
variable {count : Nat} {Lock Chan Shared Position Input : Type}

@[simp] def Pc.held [DecidableEq Lock] (guard : Lock) :
    Pc count Lock Chan Position → Option Position
  | .run here => some here
  | .spinGet lock next => if lock = guard then none else some next
  | .spinPut lock next => if lock = guard then none else some next
  | .wakeupGet _ _ next => some next
  | .wakeupTest _ _ next => some next
  | .wakeupPut _ _ next => some next
  | _ => none

@[simp] def Pc.Dropping (guard : Lock) : Pc count Lock Chan Position → Prop
  | .spinPut lock _ => lock = guard
  | .sleepGet _ lock _ => lock = some guard
  | .sleepPut _ lock _ => lock = some guard
  | _ => False

@[simp] def Pc.sleeping : Pc count Lock Chan Position → Option Chan
  | .sleepGet chan _ _ => some chan
  | .sleepPut chan _ _ => some chan
  | .sleepChan chan _ _ => some chan
  | .sleepState chan _ _ => some chan
  | _ => none

@[simp] def Pc.OwnsSelf : Pc count Lock Chan Position → Prop
  | .sleepPut .. | .sleepChan .. | .sleepState .. | .switch _ | .chanNull ..
  | .putTask .. | .yieldState _ => True
  | _ => False

@[simp] def Pc.visiting : Pc count Lock Chan Position → Option (Fin count)
  | .wakeupTest _ index _ => some index
  | .wakeupPut _ index _ => some index
  | _ => none

@[simp] def Pc.Switched : Pc count Lock Chan Position → Prop
  | .switch _ | .off _ => True
  | _ => False

theorem Pc.sleeping_of_switched {pc : Pc count Lock Chan Position} (switched : pc.Switched) :
    pc.sleeping = none := by
  cases pc with
  | switch | off => rfl
  | _ => exact absurd switched id

/-! ## Who waits -/

namespace Threads

variable {threads next : Threads count Lock Chan Shared Position} {task other : Fin count}
  {pc : Pc count Lock Chan Position} {chan : Chan}

/-- The task sleeps on the channel or is on its way there. -/
def Waiting (threads : Threads count Lock Chan Shared Position) (task : Fin count)
    (chan : Chan) : Prop :=
  (threads.pc task).sleeping = some chan ∨
    threads.state task = .SLEEP ∧ threads.chan task = some chan

theorem Waiting.of_eq (waits : next.Waiting other chan)
    (pcs : next.pc = update threads.pc task pc) (state : next.state = threads.state)
    (chans : next.chan = threads.chan)
    (sleeping : ∀ chan, pc.sleeping = some chan → (threads.pc task).sleeping = some chan) :
    threads.Waiting other chan := by
  rw [Waiting, state, chans] at waits
  refine waits.imp_left fun isSleeping => ?_
  by_cases same : other = task
  · subst same
    rw [pcs, update_self] at isSleeping
    exact sleeping chan isSleeping
  · rwa [pcs, update_of_ne same] at isSleeping

/-- What a task's place says of the fields of the slots. -/
structure Placed (threads : Threads count Lock Chan Shared Position) (task : Fin count)
    (pc : Pc count Lock Chan Position) : Prop where
  own : pc.OwnsSelf → threads.lock task = some (.task task)
  visits : ∀ index, pc.visiting = some index → threads.lock index = some (.task task)
  asleep : threads.state task = .SLEEP → pc.Switched
  chans : ∀ chan lock after, pc = .sleepState chan lock after → threads.chan task = some chan

/-- What a step of one task may change for the others. -/
structure Frame (threads next : Threads count Lock Chan Shared Position) (task : Fin count) :
    Prop where
  lock : ∀ index other, other ≠ task → threads.lock index = some (.task other) →
    next.lock index = some (.task other)
  state : ∀ other, other ≠ task → next.state other = .SLEEP → threads.state other = .SLEEP
  chan : ∀ other, other ≠ task → next.chan other = threads.chan other

theorem Placed.frame (known : threads.Placed other pc) (frame : Frame threads next task)
    (different : other ≠ task) : next.Placed other pc :=
  ⟨fun owns => frame.lock _ _ different (known.own owns),
    fun index visits => frame.lock _ _ different (known.visits index visits),
    fun asleep => known.asleep (frame.state _ different asleep),
    fun chan lock after isPc => (frame.chan _ different).trans (known.chans chan lock after isPc)⟩

theorem Placed.ne_of_waiting (known : threads.Placed task (threads.pc task))
    (notSwitched : ¬ (threads.pc task).Switched) (awake : (threads.pc task).sleeping = none)
    (waits : threads.Waiting other chan) : other ≠ task := by
  rintro rfl
  rcases waits with sleeping | ⟨asleep, _⟩
  · cases awake.symm.trans sleeping
  · exact notSwitched (known.asleep asleep)

theorem Placed.asleep_of_visited (known : threads.Placed other (threads.pc other))
    (different : other ≠ task) (visits : threads.lock other = some (.task task))
    (waits : threads.Waiting other chan) :
    (threads.state other = .SLEEP ∧ threads.chan other = some chan) ∨
      ∃ lock after, threads.pc other = .sleepGet chan lock after := by
  rcases waits with sleeping | asleep
  · right
    have notOwned : ¬ (threads.pc other).OwnsSelf := by
      intro owns
      have held := known.own owns
      rw [visits] at held
      exact different (by simpa using held.symm)
    cases isPc : threads.pc other with
    | sleepGet channel lock after =>
      rw [isPc] at sleeping
      rcases Option.some.inj sleeping with rfl
      exact ⟨lock, after, rfl⟩
    | sleepPut | sleepChan | sleepState =>
      rw [isPc] at notOwned
      exact absurd trivial notOwned
    | _ =>
      rw [isPc] at sleeping
      cases sleeping
  · exact .inl asleep

/-- What has to be checked of a step that moves one task, for those who wait. -/
structure WaitStep (Need : Chan → Shared → Prop)
    (Owed : Chan → Fin count → Pc count Lock Chan Position → Prop)
    (threads next : Threads count Lock Chan Shared Position) (task : Fin count)
    (pc : Pc count Lock Chan Position) : Prop where
  pcs : next.pc = update threads.pc task pc
  frame : Frame threads next task
  need : ∀ chan other, Need chan threads.shared → Need chan next.shared ∨ Owed chan other pc
  waits : ∀ chan, next.Waiting task chan → threads.Waiting task chan ∨ Need chan next.shared
  owed : ∀ chan other, next.Waiting other chan → Owed chan other (threads.pc task) →
    Need chan next.shared ∨ Owed chan other pc

section
variable {Need : Chan → Shared → Prop}
  {Owed : Chan → Fin count → Pc count Lock Chan Position → Prop}

theorem WaitStep.moved (change : WaitStep Need Owed threads next task pc) :
    next.pc task = pc := by
  rw [change.pcs, update_self]

theorem WaitStep.stays (change : WaitStep Need Owed threads next task pc)
    (different : other ≠ task) : next.pc other = threads.pc other := by
  rw [change.pcs, update_of_ne different]

/-- Whoever waits still has reason to or is owed a wakeup. -/
theorem WaitStep.waiting (change : WaitStep Need Owed threads next task pc)
    (before : ∀ other chan, threads.Waiting other chan →
      Need chan threads.shared ∨ ∃ holder, Owed chan other (threads.pc holder))
    (waits : next.Waiting other chan) :
    Need chan next.shared ∨ ∃ holder, Owed chan other (next.pc holder) := by
  have waited : threads.Waiting other chan ∨ Need chan next.shared := by
    by_cases same : other = task
    · subst same
      exact change.waits chan waits
    · rw [Waiting, change.stays same, change.frame.chan other same] at waits
      exact .inl (waits.imp_right (.imp_left (change.frame.state other same)))
  rcases waited with waited | need
  · rcases before other chan waited with need | ⟨holder, owed⟩
    · exact (change.need chan other need).imp_right fun owed => ⟨task, change.moved ▸ owed⟩
    · by_cases same : holder = task
      · subst same
        exact (change.owed chan other waits owed).imp_right fun owed =>
          ⟨holder, change.moved ▸ owed⟩
      · exact .inr ⟨holder, (change.stays same).symm ▸ owed⟩
  · exact .inl need

end
end Threads

/-- A monitor: `Holds` marks the positions under the guard, `Owes` the wakeups
to be done before the guard is let go, `Knows` what is known of the data there. -/
structure Monitor (Chan Shared Position : Type) where
  Need : Chan → Shared → Prop
  Holds : Position → Prop
  Owes : Position → Chan → Prop
  Knows : Position → Shared → Prop

namespace Monitor

open Threads (Waiting Frame WaitStep)
variable (monitor : Monitor Chan Shared Position)

def Entry (next : Position) : Prop :=
  monitor.Holds next ∧ ∀ shared, monitor.Knows next shared

/-- What a step passes on to the next position under the guard, but for the
wakeup of the channels in `done`. -/
def PassesOn (shared : Shared) (here : Position) (shared' : Shared) (next : Position)
    (done : Chan → Prop) : Prop :=
  (monitor.Holds next ↔ monitor.Holds here) ∧
    (monitor.Holds here → monitor.Knows next shared' ∧
      ∀ chan, ¬ done chan →
        monitor.Owes here chan ∨ (monitor.Need chan shared ∧ ¬ monitor.Need chan shared') →
        monitor.Owes next chan)

def Settled (shared : Shared) (here : Position) (shared' : Shared) : Prop :=
  monitor.Holds here ∧ ∀ chan, ¬ monitor.Owes here chan ∧
    (monitor.Need chan shared → monitor.Need chan shared')

/-- What the discipline asks of a client step, by the action it ends with. -/
def Allows (guard : Lock) (shared : Shared) (here : Position) (shared' : Shared) :
    Action Lock Chan Position → Prop
  | .goto next => monitor.PassesOn shared here shared' next fun _ => False
  | .wakeup chan next => monitor.PassesOn shared here shared' next (· = chan)
  | .spinGet lock next =>
    (lock = guard → ¬ monitor.Holds here ∧ monitor.Entry next) ∧
    (lock ≠ guard → monitor.PassesOn shared here shared' next fun _ => False)
  | .spinPut lock next =>
    (lock = guard → monitor.Settled shared here shared' ∧ ¬ monitor.Holds next) ∧
    (lock ≠ guard → monitor.PassesOn shared here shared' next fun _ => False)
  | .sleep chan lock next =>
    (lock = some guard → monitor.Settled shared here shared' ∧
      monitor.Need chan shared' ∧ monitor.Entry next) ∧
    (lock ≠ some guard → ¬ monitor.Holds here ∧ ¬ monitor.Holds next ∧
      ∀ data, monitor.Need chan data)
  | .yield next => ¬ monitor.Holds here ∧ ¬ monitor.Holds next

/-- Every client step keeps the discipline, and data changes under the guard
only. -/
structure Discipline (program : Program Lock Chan Shared Position Input) (guard : Lock) :
    Prop where
  start : ¬ monitor.Holds program.start
  unguarded : ∀ {shared here input shared' action},
    program.step shared here input = some (shared', action) →
      ¬ monitor.Holds here → shared' = shared
  allows : ∀ {shared here input shared' action},
    program.step shared here input = some (shared', action) →
      (monitor.Holds here → monitor.Knows here shared) →
      monitor.Allows guard shared here shared' action

/-! ## The invariant -/

variable [DecidableEq Lock] (guard : Lock)

@[simp] def Guarded (pc : Pc count Lock Chan Position) : Prop :=
  pc.Dropping guard ∨ ∃ position, pc.held guard = some position ∧ monitor.Holds position

/-- The position after `sleep(chan, lock)`. -/
def Regains (lock : Option Lock) (next : Position) : Prop :=
  (lock = some guard → monitor.Entry next) ∧ (lock ≠ some guard → ¬ monitor.Holds next)

/-- What the discipline says of the position a task goes on to. -/
def Shape : Pc count Lock Chan Position → Prop
  | .spinGet lock next => lock = guard → monitor.Entry next
  | .spinPut lock next => lock = guard → ¬ monitor.Holds next
  | .sleepGet chan lock next | .sleepPut chan lock next | .sleepChan chan lock next
  | .sleepState chan lock next => monitor.Regains guard lock next ∧
      (lock ≠ some guard → ∀ data, monitor.Need chan data)
  | .chanNull lock next | .putTask lock next | .switch (.sleep lock next)
  | .off (.sleep lock next) => monitor.Regains guard lock next
  | .yieldGet next | .yieldState next | .switch (.yield next) | .off (.yield next) =>
    ¬ monitor.Holds next
  | _ => True

/-- The wakeup loop on the channel has still to visit the slot. -/
@[simp] def Pending (chan : Chan) (slot : Fin count) : Pc count Lock Chan Position → Prop
  | .wakeupGet channel index _ => channel = chan ∧ index ≤ slot
  | .wakeupTest channel index _ => channel = chan ∧ index ≤ slot
  | .wakeupPut channel index _ => channel = chan ∧ index < slot
  | _ => False

/-- The holder of the guard owes the slot a wakeup on the channel. -/
@[simp] def Owed (chan : Chan) (slot : Fin count) (pc : Pc count Lock Chan Position) : Prop :=
  ∃ position, pc.held guard = some position ∧ monitor.Holds position ∧
    (monitor.Owes position chan ∨ Pending chan slot pc)

/-- What holds of a task at a place, by the locks and the fields of its slot. -/
structure At (threads : Threads count Lock Chan Shared Position) (task : Fin count)
    (pc : Pc count Lock Chan Position) : Prop extends threads.Placed task pc where
  guarded : monitor.Guarded guard pc → threads.locks guard = some task
  shape : monitor.Shape guard pc
  knows : ∀ position, pc.held guard = some position → monitor.Holds position →
    monitor.Knows position threads.shared

structure Invariant (threads : Threads count Lock Chan Shared Position) : Prop where
  tasks : ∀ task, monitor.At guard threads task (threads.pc task)
  waiting : ∀ task chan, Waiting threads task chan →
    monitor.Need chan threads.shared ∨
      ∃ other, monitor.Owed guard chan task (threads.pc other)

variable {monitor guard} {threads next : Threads count Lock Chan Shared Position}
  {pc : Pc count Lock Chan Position}

theorem Owed.guarded {chan : Chan} {slot : Fin count} (owed : monitor.Owed guard chan slot pc) :
    monitor.Guarded guard pc := by
  obtain ⟨position, held, holds, _⟩ := owed
  exact .inr ⟨position, held, holds⟩

theorem At.frame {task other : Fin count} (known : monitor.At guard threads other pc)
    (frame : Frame threads next task) (different : other ≠ task)
    (locks : threads.locks guard = some other → next.locks guard = some other)
    (shared : monitor.Guarded guard pc → next.shared = threads.shared) :
    monitor.At guard next other pc := by
  refine ⟨known.toPlaced.frame frame different, fun guarded => locks (known.guarded guarded),
    known.shape, ?_⟩
  intro position held holds
  rw [shared (.inr ⟨position, held, holds⟩)]
  exact known.knows position held holds

/-- What has to be checked of a step that moves one task. -/
structure LocalStep (monitor : Monitor Chan Shared Position) (guard : Lock)
    (threads next : Threads count Lock Chan Shared Position) (task : Fin count)
    (pc : Pc count Lock Chan Position) : Prop
    extends WaitStep monitor.Need (monitor.Owed guard) threads next task pc where
  locks : ∀ lock other, other ≠ task → threads.locks lock = some other →
    next.locks lock = some other
  shared : next.shared = threads.shared ∨ monitor.Guarded guard (threads.pc task)
  known : monitor.At guard next task pc

namespace Invariant

theorem atPc (holds : monitor.Invariant guard threads) {task : Fin count}
    {pc : Pc count Lock Chan Position} (isPc : threads.pc task = pc) :
    monitor.At guard threads task pc := isPc ▸ holds.tasks task

theorem localStep (holds : monitor.Invariant guard threads) (task : Fin count)
    (pc : Pc count Lock Chan Position) (change : LocalStep monitor guard threads next task pc) :
    monitor.Invariant guard next := by
  refine ⟨fun other => ?_, fun _ _ => change.waiting holds.waiting⟩
  by_cases same : other = task
  · rw [same, change.moved]
    exact change.known
  · rw [change.stays same]
    refine (holds.tasks other).frame change.frame same (change.locks guard other same) ?_
    intro guarded
    rcases change.shared with unchanged | taskGuarded
    · exact unchanged
    · -- Two tasks cannot hold the guard.
      have left := (holds.tasks other).guarded guarded
      have right := (holds.tasks task).guarded taskGuarded
      rw [left] at right
      exact absurd (Option.some.inj right) same

structure QuietStep (monitor : Monitor Chan Shared Position) (guard : Lock)
    (threads next : Threads count Lock Chan Shared Position) (task : Fin count)
    (pc : Pc count Lock Chan Position) : Prop where
  pcs : next.pc = update threads.pc task pc
  same : next.shared = threads.shared ∧ next.state = threads.state ∧
    next.chan = threads.chan
  locks : ∀ lock other, other ≠ task → threads.locks lock = some other →
    next.locks lock = some other
  lock : ∀ index other, other ≠ task → threads.lock index = some (.task other) →
    next.lock index = some (.task other)
  guarded : monitor.Guarded guard pc → next.locks guard = some task
  own : pc.OwnsSelf → next.lock task = some (.task task)
  visits : ∀ index, pc.visiting = some index → next.lock index = some (.task task)
  switched : (threads.pc task).Switched → pc.Switched
  notState : ∀ chan lock after, pc ≠ .sleepState chan lock after
  shape : monitor.Shape guard pc
  knows : ∀ position, pc.held guard = some position → monitor.Holds position →
    monitor.Knows position threads.shared
  sleeping : ∀ chan, pc.sleeping = some chan → (threads.pc task).sleeping = some chan
  owed : ∀ chan other, Waiting threads other chan →
    monitor.Owed guard chan other (threads.pc task) →
    monitor.Need chan threads.shared ∨ monitor.Owed guard chan other pc

theorem quietStep (holds : monitor.Invariant guard threads) (task : Fin count)
    (pc : Pc count Lock Chan Position) (change : QuietStep monitor guard threads next task pc) :
    monitor.Invariant guard next := by
  obtain ⟨shared, state, chans⟩ := change.same
  have waits : ∀ {other chan}, Waiting next other chan → Waiting threads other chan :=
    fun waits => waits.of_eq change.pcs state chans change.sleeping
  refine holds.localStep task pc
    { pcs := change.pcs, frame := ⟨change.lock, ?_, ?_⟩, locks := change.locks,
      shared := .inl shared, known := ?_, need := ?_, waits := fun _ isWaiting =>
        .inl (waits isWaiting), owed := ?_ }
  · exact fun _ _ => by rw [state]; exact id
  · exact fun _ _ => by rw [chans]
  · rw [shared]
    exact fun _ _ need => .inl need
  · intro chan other isWaiting
    rw [shared]
    exact change.owed chan other (waits isWaiting)
  · refine ⟨⟨change.own, change.visits, ?_, ?_⟩, change.guarded, change.shape, ?_⟩
    · intro asleep
      rw [state] at asleep
      exact change.switched ((holds.tasks task).asleep asleep)
    · exact fun chan lock after isPc => absurd isPc (change.notState chan lock after)
    · rw [shared]
      exact change.knows

end Invariant
end Monitor
end Tnix.Task
