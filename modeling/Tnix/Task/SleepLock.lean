import Tnix.Task.Monitor

/-! # Sleep locks

`sleep_get` sleeps after a failed test-and-set and `sleep_put` wakes after the
release, with no lock over the test and the sleep. A release and its wakeup that
both fall between the two are lost. -/

namespace Tnix.Task

open Function
variable {count : Nat} {Lock Chan Shared Position Input : Type}

/-! ## Sleeping without a lock -/

/-- A program sleeps on a channel only when it has seen the condition for it, and
whoever ends the condition wakes the channel next. -/
structure Signals (program : Program Lock Chan Shared Position Input)
    (Need : Chan → Shared → Prop) : Prop where
  sleeps : ∀ {shared here input shared' chan lock next},
    program.step shared here input = some (shared', .sleep chan lock next) → Need chan shared'
  wakes : ∀ {shared here input shared' action chan},
    program.step shared here input = some (shared', action) → Need chan shared →
      ¬ Need chan shared' → ∃ next, action = .wakeup chan next

namespace Threads

open Monitor (Pending)
variable {program : Program Lock Chan Shared Position Input} {Need : Chan → Shared → Prop}
  {threads next : Threads count Lock Chan Shared Position}

/-- A wakeup tests a slot only when its task is not about to enter `sleep` on the
channel. -/
def TestsSettled (threads : Threads count Lock Chan Shared Position) :
    Label count Input → Prop
  | .advance task => ∀ chan index after, threads.pc task = .wakeupTest chan index after →
      ∀ lock position, threads.pc index ≠ .sleepGet chan lock position
  | _ => True

/-- Whoever sleeps or is about to has reason to, or a wakeup has still to reach it. -/
structure Signalled (Need : Chan → Shared → Prop)
    (threads : Threads count Lock Chan Shared Position) : Prop where
  placed : ∀ task, threads.Placed task (threads.pc task)
  waiting : ∀ task chan, Waiting threads task chan →
    Need chan threads.shared ∨ ∃ other, Pending chan task (threads.pc other)

namespace Signalled

theorem signalStep (holds : threads.Signalled Need) {task : Fin count}
    {pc : Pc count Lock Chan Position} (change : WaitStep Need Pending threads next task pc)
    (placed : next.Placed task pc) : next.Signalled Need := by
  refine ⟨fun other => ?_, fun _ _ => change.waiting holds.waiting⟩
  by_cases same : other = task
  · rw [same, change.moved]
    exact placed
  · rw [change.stays same]
    exact (holds.placed other).frame change.frame same

/-! ## Steps of one task -/

variable {task index : Fin count} {pc : Pc count Lock Chan Position}
  {holder : Option (Holder count)} {chan : Chan} {lock : Option Lock} {after : Position}
  {InitialShared : Shared → Prop}

theorem lockStep (holds : threads.Signalled Need) (pcs : next.pc = update threads.pc task pc)
    (same : next.shared = threads.shared ∧ next.state = threads.state ∧ next.chan = threads.chan)
    (lock : ∀ index other, other ≠ task → threads.lock index = some (.task other) →
      next.lock index = some (.task other)) (own : pc.OwnsSelf → next.lock task = some (.task task))
    (visits : ∀ index, pc.visiting = some index → next.lock index = some (.task task))
    (switched : (threads.pc task).Switched → pc.Switched)
    (notState : ∀ chan lock after, pc ≠ .sleepState chan lock after)
    (sleeping : ∀ chan, pc.sleeping = some chan → (threads.pc task).sleeping = some chan)
    (pending : ∀ chan other, Waiting threads other chan → Pending chan other (threads.pc task) →
      Pending chan other pc) :
    next.Signalled Need := by
  rcases same with ⟨shared, state, chans⟩
  have waits : ∀ {other chan}, Waiting next other chan → Waiting threads other chan :=
    fun isWaiting => isWaiting.of_eq pcs state chans sleeping
  refine holds.signalStep
    { pcs := pcs, frame := ⟨lock, fun _ _ => by rw [state]; exact id, fun _ _ => by rw [chans]⟩,
      need := fun _ _ need => .inl (shared ▸ need),
      waits := fun _ isWaiting => .inl (waits isWaiting),
      owed := fun chan other isWaiting was => .inr (pending chan other (waits isWaiting) was) }
    ⟨own, visits, ?_, fun chan lock after isPc => absurd isPc (notState chan lock after)⟩
  intro asleep
  rw [state] at asleep
  exact switched ((holds.placed task).asleep asleep)

theorem placedPc (holds : threads.Signalled Need) (isPc : threads.pc task = pc) :
    threads.Placed task pc := isPc ▸ holds.placed task

section
variable (holds : threads.Signalled Need)
include holds

theorem ownStep (pcs : next.pc = update threads.pc task pc) (shared : next.shared = threads.shared)
    (lock : ∀ index other, other ≠ task → threads.lock index = some (.task other) →
      next.lock index = some (.task other))
    (state : ∀ other, other ≠ task → next.state other = threads.state other)
    (chan : ∀ other, other ≠ task → next.chan other = threads.chan other)
    (placed : next.Placed task pc)
    (waits : ∀ chan, Waiting next task chan → Waiting threads task chan)
    (notWaking : ∀ chan other, ¬ Pending chan other (threads.pc task)) :
    next.Signalled Need :=
  holds.signalStep
    { pcs := pcs, frame := ⟨lock, fun other different => by
        rw [state other different]
        exact id, chan⟩
      need := fun _ _ need => .inl (shared ▸ need)
      waits := fun chan isWaiting => .inl (waits chan isWaiting)
      owed := fun chan other _ pending => absurd pending (notWaking chan other) }
    placed

theorem sleepChan (pc : threads.pc task = .sleepChan chan lock after) :
    ((threads.setChan task (some chan)).setPc task
      (.sleepState chan lock after)).Signalled Need := by
  have known := holds.placedPc pc
  refine holds.ownStep rfl rfl (fun _ _ _ => id) (fun _ _ => rfl) ?_
    ⟨known.own, nofun, known.asleep, ?_⟩ ?_ ?_
  · intro other different
    simp [different]
  · rintro channel _ _ ⟨⟩
    simp
  · rintro channel (sleeping | ⟨asleep, _⟩)
    · exact .inl (by simpa [pc] using sleeping)
    · exact absurd (known.asleep asleep) id
  · simp [pc]

theorem sleepState (pc : threads.pc task = .sleepState chan lock after) :
    ((threads.setState task .SLEEP).setPc task (.switch (.sleep lock after))).Signalled Need := by
  have known := holds.placedPc pc
  have chanIs := known.chans chan lock after rfl
  refine holds.ownStep rfl rfl (fun _ _ _ => id) ?_ (fun _ _ => rfl)
    ⟨known.own, nofun, fun _ => trivial, nofun⟩ ?_ ?_
  · intro other different
    simp [different]
  · rintro channel (sleeping | ⟨_, isChan⟩)
    · simp at sleeping
    · have same : chan = channel := Option.some.inj (chanIs.symm.trans isChan)
      exact .inl (by simp [pc, same])
  · simp [pc]

theorem yieldState (pc : threads.pc task = .yieldState after) :
    ((threads.setState task .READY).setPc task (.switch (.yield after))).Signalled Need := by
  have known := holds.placedPc pc
  refine holds.ownStep rfl rfl (fun _ _ _ => id) ?_ (fun _ _ => rfl)
    ⟨known.own, nofun, fun _ => trivial, nofun⟩ ?_ ?_
  · intro other different
    simp [different]
  · rintro channel (sleeping | ⟨asleep, _⟩)
    · simp at sleeping
    · simp at asleep
  · simp [pc]

theorem chanNull (pc : threads.pc task = .chanNull lock after) :
    ((threads.setChan task none).setPc task (.putTask lock after)).Signalled Need := by
  have known := holds.placedPc pc
  refine holds.ownStep rfl rfl (fun _ _ _ => id) (fun _ _ => rfl) ?_
    ⟨known.own, nofun, known.asleep, nofun⟩ ?_ ?_
  · intro other different
    simp [different]
  · rintro channel (sleeping | ⟨asleep, _⟩)
    · simp at sleeping
    · exact absurd (known.asleep asleep) id
  · simp [pc]

theorem takeOwn (free : threads.lock task = none) (visits : pc.visiting = none)
    (notSwitched : ¬ (threads.pc task).Switched)
    (notState : ∀ chan lock after, pc ≠ .sleepState chan lock after)
    (sleeping : ∀ chan, pc.sleeping = some chan → (threads.pc task).sleeping = some chan)
    (notWaking : ∀ chan other, ¬ Pending chan other (threads.pc task)) :
    ((threads.setLock task (some (.task task))).setPc task pc).Signalled Need :=
  holds.lockStep rfl ⟨rfl, rfl, rfl⟩ (setLock_others (by simp [free]))
    (fun _ => by simp) (fun _ visited => by cases visits.symm.trans visited)
    (fun switched => absurd switched notSwitched) notState sleeping
    fun chan other _ pending => absurd pending (notWaking chan other)

theorem dropOwn (held : threads.lock task = some (.task task)) (owns : ¬ pc.OwnsSelf)
    (visits : pc.visiting = none) (switched : (threads.pc task).Switched → pc.Switched)
    (sleeping : pc.sleeping = none)
    (notWaking : ∀ chan other, ¬ Pending chan other (threads.pc task)) :
    ((threads.setLock task holder).setPc task pc).Signalled Need := by
  refine holds.lockStep rfl ⟨rfl, rfl, rfl⟩ (setLock_others ?_) (fun isOwn => absurd isOwn owns)
    (fun _ visited => by cases visits.symm.trans visited) switched ?_
    (fun _ sleeps => by cases sleeping.symm.trans sleeps)
    fun chan other _ pending => absurd pending (notWaking chan other)
  · intro other different isHeld
    rw [held] at isHeld
    exact different (by simpa using isHeld.symm)
  · rintro chan lock after rfl
    exact owns trivial

/-! ## The wakeup loop -/

theorem wakeupSkip (pc : threads.pc task = .wakeupGet chan task after) :
    (threads.setPc task (.wakeupGet chan (task + 1) after)).Signalled Need := by
  refine holds.lockStep rfl ⟨rfl, rfl, rfl⟩ (fun _ _ _ => id) nofun nofun
    (by simp [pc]) nofun nofun ?_
  intro channel other waits pending
  have different := (holds.placed task).ne_of_waiting (by simp [pc]) (by simp [pc]) waits
  rw [pc] at pending
  have : (other : Nat) ≠ task := fun same => different (Fin.ext same)
  exact ⟨pending.1, by have := pending.2; omega⟩

theorem wakeupDone {index : Nat} (pc : threads.pc task = .wakeupGet chan index after)
    (done : count ≤ index) : (threads.setPc task (.run after)).Signalled Need := by
  refine holds.lockStep rfl ⟨rfl, rfl, rfl⟩ (fun _ _ _ => id) nofun nofun
    (by simp [pc]) nofun nofun ?_
  intro channel other _ pending
  rw [pc] at pending
  exact absurd (Nat.le_trans done pending.2) (Nat.not_le_of_gt other.isLt)

theorem wakeupGet (pc : threads.pc task = .wakeupGet chan index after)
    (free : threads.lock index = none) :
    ((threads.setLock index (some (.task task))).setPc task
      (.wakeupTest chan index after)).Signalled Need := by
  refine holds.lockStep rfl ⟨rfl, rfl, rfl⟩ (setLock_others (by simp [free])) nofun ?_
    (by simp [pc]) nofun nofun ?_
  · rintro slot ⟨⟩
    simp
  · intro channel other _ pending
    rw [pc] at pending
    exact pending

theorem wakeupPut (pc : threads.pc task = .wakeupPut chan index after)
    (held : threads.lock index = some (.task task)) :
    ((threads.setLock index none).setPc task
      (.wakeupGet chan (index + 1) after)).Signalled Need := by
  refine holds.lockStep rfl ⟨rfl, rfl, rfl⟩ (setLock_others ?_) nofun nofun
    (by simp [pc]) nofun nofun ?_
  · intro other different isHeld
    rw [held] at isHeld
    exact different (by simpa using isHeld.symm)
  · intro channel other _ pending
    rw [pc] at pending
    exact pending

theorem wakeupPass (pc : threads.pc task = .wakeupTest chan index after)
    (settled : ∀ lock position, threads.pc index ≠ .sleepGet chan lock position)
    (pass : ¬ (threads.state index = .SLEEP ∧ threads.chan index = some chan)) :
    (threads.setPc task (.wakeupPut chan index after)).Signalled Need := by
  have held := (holds.placed task).visits index (by simp [pc])
  refine holds.lockStep rfl ⟨rfl, rfl, rfl⟩ (fun _ _ _ => id) nofun ?_
    (by simp [pc]) nofun nofun ?_
  · rintro slot ⟨⟩
    exact held
  · intro channel other waits pending
    rw [pc] at pending
    rcases pending with ⟨rfl, upTo⟩
    have different := (holds.placed task).ne_of_waiting (by simp [pc]) (by simp [pc]) waits
    have passed : other ≠ index := by
      rintro rfl
      rcases (holds.placed other).asleep_of_visited different held waits with
        asleep | ⟨lock, position, isPc⟩
      · exact pass asleep
      · exact settled lock position isPc
    have : (other : Nat) ≠ index := fun same => passed (Fin.ext same)
    exact ⟨rfl, by omega⟩

theorem wakeupFire (pc : threads.pc task = .wakeupTest chan index after)
    (asleep : threads.state index = .SLEEP) :
    ((threads.setState index .READY).setPc task (.wakeupPut chan index after)).Signalled Need := by
  have known := holds.placedPc pc
  have awake : threads.state task ≠ .SLEEP := fun isAsleep => known.asleep isAsleep
  have different : index ≠ task := by
    rintro rfl
    exact awake asleep
  have state : ∀ other, (threads.setState index .READY).state other = .SLEEP →
      threads.state other = .SLEEP ∧ other ≠ index := by
    intro other isAsleep
    by_cases same : other = index
    · simp [same] at isAsleep
    · exact ⟨by simpa [same] using isAsleep, same⟩
  refine holds.signalStep
    { pcs := rfl, frame := ⟨fun _ _ _ => id, fun other _ isAsleep => (state other isAsleep).1,
        fun _ _ => rfl⟩, need := fun _ _ need => .inl need, waits := ?_, owed := ?_ }
    ⟨nofun, known.visits, fun isAsleep => absurd (state task isAsleep).1 awake, nofun⟩
  · rintro channel (sleeping | ⟨isAsleep, _⟩)
    · simp at sleeping
    · exact absurd (state task isAsleep).1 awake
  · intro channel other waits pending
    rw [pc] at pending
    have passed : other ≠ index := by
      rintro rfl
      rcases waits with sleeping | ⟨isAsleep, _⟩
      · -- a task that sleeps is not on its way to sleep
        have still : (threads.pc other).sleeping = some channel := by
          simpa [different] using sleeping
        rw [Pc.sleeping_of_switched ((holds.placed other).asleep asleep)] at still
        cases still
      · exact (state other isAsleep).2 rfl
    have : (other : Nat) ≠ index := fun same => passed (Fin.ext same)
    exact .inr ⟨pending.1, by have := pending.2; omega⟩

/-! ## The scheduler -/

theorem schedLock (holder : Option (Holder count))
    (notTask : ∀ other, threads.lock task ≠ some (.task other)) :
    (threads.setLock task holder).Signalled Need := by
  have known := holds.placed task
  refine holds.lockStep (update_eq_self task threads.pc).symm ⟨rfl, rfl, rfl⟩
    (setLock_others fun other _ => notTask other) ?_ ?_ id ?_ (fun _ => id) fun _ _ _ => id
  · exact fun owns => absurd (known.own owns) (notTask task)
  · intro index visits
    have held := known.visits index visits
    have different : index ≠ task := by
      rintro rfl
      exact notTask index held
    simpa [different] using held
  · intro chan lock after isPc
    exact notTask task (known.own (by simp [isPc]))

theorem schedRun {after : After Lock Position} (pc : threads.pc task = .off after)
    (held : threads.lock task = some .schedTest) :
    (((threads.setState task .RUN).setLock task (some (.task task))).setPc task
      after.entry).Signalled Need := by
  refine holds.ownStep rfl rfl (setLock_others (by simp [held])) ?_ (fun _ _ => rfl) ?_ ?_ ?_
  · intro other different
    simp [different]
  · refine ⟨fun _ => by simp, ?_, ?_, ?_⟩
    · cases after <;> simp
    · intro asleep
      simp at asleep
    · cases after <;> simp
  · rintro channel (sleeping | ⟨asleep, _⟩)
    · cases after <;> simp at sleeping
    · simp at asleep
  · simp [pc]

/-! ## Whole runs -/

theorem client (signals : Signals program Need) {here : Position} {input : Input} {shared : Shared}
    {action : Action Lock Chan Position} (pc : threads.pc task = .run here)
    (taken : program.step threads.shared here input = some (shared, action)) :
    ({ threads with shared := shared }.setPc task action.entry).Signalled Need := by
  have known := holds.placedPc pc
  refine holds.signalStep
    { pcs := rfl, frame := ⟨fun _ _ _ => id, fun _ _ => id, fun _ _ => rfl⟩, need := ?_,
      waits := ?_, owed := ?_ } ⟨?_, ?_, fun asleep => absurd (known.asleep asleep) id, ?_⟩
  · intro chan other need
    by_cases still : Need chan shared
    · exact .inl still
    · rcases signals.wakes taken need still with ⟨after, rfl⟩
      exact .inr ⟨rfl, Nat.zero_le _⟩
  · rintro chan (sleeping | ⟨asleep, _⟩)
    · right
      cases action with
      | sleep channel lock after =>
        have same : channel = chan := by simpa using sleeping
        exact same ▸ signals.sleeps taken
      | _ => simp at sleeping
    · exact absurd (known.asleep asleep) id
  · intro chan other _ pending
    rw [pc] at pending
    exact absurd pending id
  · cases action <;> simp
  · cases action <;> simp
  · cases action <;> simp

end

theorem schedule (holds : threads.Signalled Need) (taken : threads.schedule task = some next) :
    next.Signalled Need := by
  unfold Threads.schedule at taken
  split at taken
  case h_1 free => exact Option.some.inj taken ▸ holds.schedLock _ (by simp [free])
  case h_2 held =>
    split at taken
    case isTrue =>
      split at taken
      case h_1 after pc => exact Option.some.inj taken ▸ holds.schedRun pc held
      case h_2 => cases taken
    case isFalse => exact Option.some.inj taken ▸ holds.schedLock _ (by simp [held])
  case h_3 held => exact Option.some.inj taken ▸ holds.schedLock _ (by simp [held])
  case h_4 => cases taken

variable [DecidableEq Lock] [DecidableEq Chan]

theorem advance (holds : threads.Signalled Need)
    (settled : ∀ chan index after, threads.pc task = .wakeupTest chan index after →
      ∀ lock position, threads.pc index ≠ .sleepGet chan lock position)
    (taken : threads.advance task = some next) : next.Signalled Need := by
  have known := holds.placed task
  unfold Threads.advance at taken
  split at taken
  case h_1 => cases taken
  case h_2 => cases taken
  case h_3 lock after pc =>
    rcases Option.ite_none_right_eq_some.mp taken with ⟨_, ⟨⟩⟩
    exact holds.lockStep rfl ⟨rfl, rfl, rfl⟩ (fun _ _ _ => id) nofun nofun
      (by simp [pc]) nofun nofun (by simp [pc])
  case h_4 lock after pc =>
    rcases Option.ite_none_right_eq_some.mp taken with ⟨_, ⟨⟩⟩
    exact holds.lockStep rfl ⟨rfl, rfl, rfl⟩ (fun _ _ _ => id) nofun nofun
      (by simp [pc]) nofun nofun (by simp [pc])
  case h_5 chan lock after pc =>
    rcases Option.ite_none_right_eq_some.mp taken with ⟨free, ⟨⟩⟩
    exact holds.takeOwn free rfl (by simp [pc]) nofun
      (by simp [pc]) (by simp [pc])
  case h_6 chan after pc =>
    cases taken
    exact holds.lockStep rfl ⟨rfl, rfl, rfl⟩ (fun _ _ _ => id)
      (fun _ => known.own (by simp [pc])) nofun (by simp [pc]) nofun
      (by simp [pc]) (by simp [pc])
  case h_7 chan lock after pc =>
    rcases Option.ite_none_right_eq_some.mp taken with ⟨_, ⟨⟩⟩
    exact holds.lockStep rfl ⟨rfl, rfl, rfl⟩ (fun _ _ _ => id)
      (fun _ => known.own (by simp [pc])) nofun (by simp [pc]) nofun
      (by simp [pc]) (by simp [pc])
  case h_8 chan lock after pc => exact Option.some.inj taken ▸ holds.sleepChan pc
  case h_9 chan lock after pc => exact Option.some.inj taken ▸ holds.sleepState pc
  case h_10 after pc =>
    rcases Option.ite_none_right_eq_some.mp taken with ⟨free, ⟨⟩⟩
    exact holds.takeOwn free rfl (by simp [pc]) nofun nofun
      (by simp [pc])
  case h_11 after pc => exact Option.some.inj taken ▸ holds.yieldState pc
  case h_12 after pc =>
    rcases Option.ite_none_right_eq_some.mp taken with ⟨held, ⟨⟩⟩
    exact holds.dropOwn held id rfl (fun _ => trivial) rfl (by simp [pc])
  case h_13 lock after pc => exact Option.some.inj taken ▸ holds.chanNull pc
  case h_14 lock after pc =>
    rcases Option.ite_none_right_eq_some.mp taken with ⟨held, ⟨⟩⟩
    cases lock with
    | none =>
      exact holds.dropOwn held id rfl (by simp [pc]) rfl (by simp [pc])
    | some lock =>
      exact holds.dropOwn held id rfl (by simp [pc]) rfl (by simp [pc])
  case h_15 chan index after pc =>
    split at taken
    case isTrue inRange =>
      split at taken
      case isTrue same =>
        subst same
        exact Option.some.inj taken ▸ holds.wakeupSkip pc
      case isFalse =>
        rcases Option.ite_none_right_eq_some.mp taken with ⟨free, ⟨⟩⟩
        exact holds.wakeupGet pc free
    case isFalse done =>
      exact Option.some.inj taken ▸ holds.wakeupDone pc (Nat.le_of_not_lt done)
  case h_16 chan index after pc =>
    split at taken
    case isTrue asleep => exact Option.some.inj taken ▸ holds.wakeupFire pc asleep.1
    case isFalse pass =>
      exact Option.some.inj taken ▸
        holds.wakeupPass pc (settled chan index after pc) pass
  case h_17 chan index after pc =>
    rcases Option.ite_none_right_eq_some.mp taken with ⟨held, ⟨⟩⟩
    exact holds.wakeupPut pc held

theorem step (holds : threads.Signalled Need) (signals : Signals program Need)
    {label : Label count Input} (settled : threads.TestsSettled label)
    (taken : threads.step program label = some next) : next.Signalled Need := by
  cases label with
  | client task input =>
    simp only [Threads.step] at taken
    split at taken
    case h_1 here pc =>
      rcases Option.map_eq_some_iff.mp taken with ⟨⟨shared, action⟩, stepped, rfl⟩
      exact holds.client signals pc stepped
    case h_2 => cases taken
  | advance task => exact holds.advance settled taken
  | schedule task => exact holds.schedule taken

theorem initial (isInitial : (Threads.machine count program InitialShared).Initial threads) :
    threads.Signalled Need := by
  rcases isInitial with ⟨_, locks, state, chans, lock, pcs⟩
  refine ⟨?_, ?_⟩
  · intro task
    rw [pcs]
    exact ⟨nofun, nofun, fun _ => trivial, nofun⟩
  · rintro task chan (sleeping | ⟨asleep, _⟩)
    · simp [pcs] at sleeping
    · simp [state] at asleep

theorem of_reaches (signals : Signals program Need)
    (reached : (Threads.machine count program InitialShared).Reaches TestsSettled threads) :
    threads.Signalled Need :=
  reached.invariant (Signalled Need) (fun _ isInitial => initial isInitial)
    fun _ _ _ holds settled taken => holds.step signals settled taken

end Signalled
end Threads

/-! ## `sleep_get` and `sleep_put` -/

section
variable {Name : Type} [DecidableEq Name]

/-- Where a task is, with the locks whose `task` field it has set to itself. -/
inductive SleepLockPosition (Name : Type)
  /-- Outside of the two calls. -/
  | user (held : List Name)
  /-- The test-and-set of `sleep_get`. -/
  | sleepGet (lock : Name) (held : List Name)
  deriving DecidableEq

inductive SleepLockInput (Name : Type)
  | sleepGet (lock : Name)
  | sleepPut (lock : Name)
  /-- The timer interrupts the task. -/
  | yield
  /-- The call goes on. -/
  | run

/-- `locked` of every sleep lock is the shared data. A panic is no step. -/
def sleepLockStep (locked : Name → Bool) : SleepLockPosition Name → SleepLockInput Name →
    Option ((Name → Bool) × Action Empty Name (SleepLockPosition Name))
  | .user held, .sleepGet lock =>
    if lock ∈ held then none else some (locked, .goto (.sleepGet lock held))
  | .sleepGet lock held, .run =>
    if locked lock then some (locked, .sleep lock none (.sleepGet lock held))
    else some (update locked lock true, .goto (.user (lock :: held)))
  | .user held, .sleepPut lock =>
    if lock ∈ held then
      some (update locked lock false, .wakeup lock (.user (held.erase lock)))
    else none
  | .user held, .yield => some (locked, .yield (.user held))
  | _, _ => none

def sleepLockProgram (Name : Type) [DecidableEq Name] :
    Program Empty Name (Name → Bool) (SleepLockPosition Name) (SleepLockInput Name) where
  start := .user []
  step := sleepLockStep

/-- `count` tasks and any number of sleep locks, all free. -/
def sleepLockMachine (count : Nat) (Name : Type) [DecidableEq Name] :
    Machine (Threads count Empty Name (Name → Bool) (SleepLockPosition Name))
      (Threads.Label count (SleepLockInput Name)) :=
  Threads.machine count (sleepLockProgram Name) fun locked => locked = fun _ => false

theorem sleepLock_signals :
    Signals (sleepLockProgram Name) fun lock locked => locked lock = true := by
  refine ⟨?_, ?_⟩
  · intro locked here input locked' chan lock next taken
    cases here with
    | user held =>
      cases input <;> simp [sleepLockProgram, sleepLockStep] at taken
    | sleepGet name held =>
      cases input with
      | run =>
        simp only [sleepLockProgram, sleepLockStep] at taken
        split at taken
        case isTrue isLocked =>
          cases taken
          exact isLocked
        case isFalse => cases taken
      | _ => cases taken
  · intro locked here input locked' action chan taken wasLocked notLocked
    cases here with
    | user held =>
      cases input with
      | sleepPut lock =>
        simp only [sleepLockProgram, sleepLockStep] at taken
        split at taken
        case isTrue =>
          cases taken
          by_cases same : chan = lock
          · subst same
            exact ⟨_, rfl⟩
          · exact absurd wasLocked (by simpa [same] using notLocked)
        case isFalse => cases taken
      | sleepGet lock =>
        simp only [sleepLockProgram, sleepLockStep] at taken
        split at taken
        case isTrue => cases taken
        case isFalse =>
          cases taken
          exact absurd wasLocked notLocked
      | yield =>
        cases taken
        exact absurd wasLocked notLocked
      | run => cases taken
    | sleepGet name held =>
      cases input with
      | run =>
        simp only [sleepLockProgram, sleepLockStep] at taken
        split at taken
        case isTrue =>
          cases taken
          exact absurd wasLocked notLocked
        case isFalse =>
          cases taken
          by_cases same : chan = name
          · simp [same] at notLocked
          · exact absurd wasLocked (by simpa [same] using notLocked)
      | _ => cases taken

/-- A task sleeps on a lock only while the lock is held or a wakeup on it has still
to come to the task. -/
def SleepersCovered {count : Nat}
    (threads : Threads count Empty Name (Name → Bool) (SleepLockPosition Name)) : Prop :=
  ∀ task lock, threads.state task = .SLEEP → threads.chan task = some lock →
    threads.shared lock = true ∨ ∃ other, Monitor.Pending lock task (threads.pc other)

theorem sleepersCovered_of_reaches {count : Nat}
    {threads : Threads count Empty Name (Name → Bool) (SleepLockPosition Name)}
    (reached : (sleepLockMachine count Name).Reaches Threads.TestsSettled threads) :
    SleepersCovered threads := by
  intro task lock asleep chanIs
  exact (Threads.Signalled.of_reaches sleepLock_signals reached).waiting task lock
    (.inr ⟨asleep, chanIs⟩)

def sleepLockStart : Threads 2 Empty Unit (Unit → Bool) (SleepLockPosition Unit) where
  shared := fun _ => false
  locks := fun _ => none
  state := fun _ => .READY
  chan := fun _ => none
  lock := fun _ => none
  pc := fun _ => .off (.yield (.user []))

theorem initial_sleepLockStart : (sleepLockMachine 2 Unit).Initial sleepLockStart :=
  ⟨rfl, rfl, rfl, rfl, rfl, rfl⟩

def contendRun : List (Threads.Label 2 (SleepLockInput Unit)) :=
  [.schedule 0, .schedule 0, .advance 0, .schedule 1, .schedule 1, .advance 1,
    .client 0 (.sleepGet ()), .client 0 .run, .client 1 (.sleepGet ()), .client 1 .run]

def sleepRun : List (Threads.Label 2 (SleepLockInput Unit)) :=
  List.replicate 5 (.advance 1) ++ [.schedule 1]

def releaseRun : List (Threads.Label 2 (SleepLockInput Unit)) :=
  .client 0 (.sleepPut ()) :: List.replicate 5 (.advance 0)

theorem sleepersCovered_sleepRun :
    ∃ threads, (sleepLockMachine 2 Unit).run sleepLockStart (contendRun ++ sleepRun) =
        some threads ∧
      threads.state 1 = .SLEEP ∧ threads.chan 1 = some () ∧ SleepersCovered threads := by
  rcases (⟨_, rfl, rfl, rfl⟩ : ∃ threads,
      (sleepLockMachine 2 Unit).run sleepLockStart (contendRun ++ sleepRun) = some threads ∧
        threads.state 1 = .SLEEP ∧ threads.chan 1 = some ()) with
    ⟨threads, ran, asleep, chanIs⟩
  have started : (sleepLockMachine 2 Unit).Reaches Threads.TestsSettled sleepLockStart :=
    .initial initial_sleepLockStart
  refine ⟨threads, ran, asleep, chanIs, sleepersCovered_of_reaches (started.run ?_ ran)⟩
  repeat first | exact trivial | refine ⟨trivial, ?_⟩ | refine ⟨nofun, ?_⟩

/-- The release and its wakeup fall between the failed test-and-set and the sleep. -/
theorem releaseRun_loses_wakeup :
    ∃ threads, (sleepLockMachine 2 Unit).Reachable threads ∧ threads.state 1 = .SLEEP ∧
      threads.chan 1 = some () ∧ threads.shared () = false ∧ ¬ SleepersCovered threads := by
  rcases (⟨_, rfl, rfl, rfl, rfl, rfl, rfl⟩ : ∃ threads,
      (sleepLockMachine 2 Unit).run sleepLockStart (contendRun ++ releaseRun ++ sleepRun) =
          some threads ∧
        threads.state 1 = .SLEEP ∧ threads.chan 1 = some () ∧ threads.shared () = false ∧
        threads.pc 0 = .run (.user []) ∧ threads.pc 1 = .off (.sleep none (.sleepGet () []))) with
    ⟨threads, ran, asleep, chanIs, free, left, right⟩
  have started : (sleepLockMachine 2 Unit).Reachable sleepLockStart :=
    .initial initial_sleepLockStart
  refine ⟨threads, started.run ran, asleep, chanIs, free, ?_⟩
  intro covered
  rcases covered 1 () asleep chanIs with isLocked | ⟨other, pending⟩
  · simp [free] at isLocked
  · have isTask : other = 0 ∨ other = 1 := by omega
    rcases isTask with rfl | rfl
    · rw [left] at pending
      exact pending
    · rw [right] at pending
      exact pending

/-! ## Mutual exclusion -/

@[grind] def SleepLockPosition.held : SleepLockPosition Name → List Name
  | .user held | .sleepGet _ held => held

/-- Every locked lock has one holder, who holds it once, and nobody holds another lock. -/
def Exclusive (state : (Name → Bool) × (Fin count → SleepLockPosition Name)) : Prop :=
  ∃ holder : Name → Option (Fin count), ∀ lock, state.1 lock = (holder lock).isSome ∧
    ∀ task, (state.2 task).held.count lock = if holder lock = some task then 1 else 0

/-- Two tasks never hold the same lock, even when wakeups are lost. -/
theorem exclusive_of_reachable
    {threads : Threads count Empty Name (Name → Bool) (SleepLockPosition Name)}
    (reached : (sleepLockMachine count Name).Reachable threads) : Exclusive threads.clients := by
  refine Threads.clients_invariant Exclusive ?_ ?_ reached
  · rintro _ rfl
    exact ⟨fun _ => none, by simp [sleepLockProgram, SleepLockPosition.held]⟩
  · rintro state task input locked action ⟨holder, known⟩ taken
    have here (lock : Name) := (known lock).2 task
    simp only [sleepLockProgram, sleepLockStep] at taken
    generalize state.2 task = position at taken here
    split at taken <;> (try split at taken) <;> cases taken
    case h_2.isFalse name held free =>
      refine ⟨update holder name (some task), ?_⟩
      grind [Action.entry]
    case h_3.isTrue held name isHeld =>
      refine ⟨update holder name none, ?_⟩
      grind [Action.entry]
    all_goals
      refine ⟨holder, ?_⟩
      grind [Action.entry]

theorem exclusive_of_contendRun : ∃ threads,
    (sleepLockMachine 2 Unit).run sleepLockStart contendRun = some threads ∧
      threads.shared () = true ∧ Exclusive threads.clients := by
  rcases (⟨_, rfl, rfl⟩ : ∃ threads, (sleepLockMachine 2 Unit).run sleepLockStart contendRun =
    some threads ∧ threads.shared () = true) with ⟨threads, ran, isLocked⟩
  exact ⟨threads, ran, isLocked, exclusive_of_reachable (.run (.initial initial_sleepLockStart) ran)⟩

end
end Tnix.Task
