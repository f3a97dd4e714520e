import Tnix.Task.Monitor

/-! # Every step of a disciplined program keeps the monitor invariant -/

namespace Tnix.Task

open Option
open Threads (Waiting setLock_others setLocks_others)

namespace Monitor

variable {count : Nat} {Lock Chan Shared Position Input : Type}
  {monitor : Monitor Chan Shared Position} [DecidableEq Lock] {guard : Lock}
  {threads next : Threads count Lock Chan Shared Position}

namespace Invariant

/-! ## Spin locks of the client -/

variable {task index : Fin count} {after : Position} {chan : Chan} {lock : Option Lock}

theorem spinGet (holds : monitor.Invariant guard threads) {lock : Lock}
    (pc : threads.pc task = .spinGet lock after) (free : threads.locks lock = none) :
    monitor.Invariant guard ((threads.setLocks lock (some task)).setPc task (.run after)) := by
  have known := holds.atPc pc
  refine holds.quietStep task (.run after)
    { pcs := rfl, same := ⟨rfl, rfl, rfl⟩, locks := setLocks_others (by simp [free]),
      lock := fun _ _ _ => id, guarded := ?_, own := nofun, visits := nofun, switched := ?_,
      notState := nofun, shape := trivial, knows := ?_, sleeping := nofun, owed := ?_ }
  · intro guarded
    by_cases same : lock = guard
    · simp [same]
    · have before := known.guarded (.inr (by simpa [same] using guarded))
      simpa [Ne.symm same] using before
  · simp [pc]
  · rintro position ⟨⟩ isHeld
    by_cases same : lock = guard
    · exact (known.shape same).2 _
    · exact known.knows after (by simp [same]) isHeld
  · intro chan other _ owed
    rw [pc] at owed
    by_cases same : lock = guard
    · simp [same] at owed
    · exact .inr (by simpa [same] using owed)

theorem spinPut (holds : monitor.Invariant guard threads) {lock : Lock}
    (pc : threads.pc task = .spinPut lock after) (held : threads.locks lock = some task) :
    monitor.Invariant guard ((threads.setLocks lock none).setPc task (.run after)) := by
  have known := holds.atPc pc
  refine holds.quietStep task (.run after)
    { pcs := rfl, same := ⟨rfl, rfl, rfl⟩, locks := setLocks_others (by simp [held, eq_comm]),
      lock := fun _ _ _ => id, guarded := ?_, own := nofun, visits := nofun, switched := ?_,
      notState := nofun, shape := trivial, knows := ?_, sleeping := nofun, owed := ?_ }
  · intro guarded
    have isHeld : monitor.Holds after := by simpa using guarded
    by_cases same : lock = guard
    · exact absurd isHeld (known.shape same)
    · have before := known.guarded (.inr ⟨after, by simp [same], isHeld⟩)
      simpa [Ne.symm same] using before
  · simp [pc]
  · rintro position ⟨⟩ isHeld
    by_cases same : lock = guard
    · exact absurd isHeld (known.shape same)
    · exact known.knows after (by simp [same]) isHeld
  · intro chan other _ owed
    rw [pc] at owed
    by_cases same : lock = guard
    · simp [same] at owed
    · exact .inr (by simpa [same] using owed)

/-! ## Task locks -/

section
variable (holds : monitor.Invariant guard threads)
include holds

theorem sleepGet (pc : threads.pc task = .sleepGet chan lock after)
    (free : threads.lock task = none) :
    monitor.Invariant guard ((threads.setLock task (some (.task task))).setPc task
      (.sleepPut chan lock after)) := by
  have known := holds.atPc pc
  refine holds.quietStep task (.sleepPut chan lock after)
    { pcs := rfl, same := ⟨rfl, rfl, rfl⟩, locks := fun _ _ _ => id,
      lock := setLock_others (by simp [free]), guarded := known.guarded, own := ?_,
      visits := nofun, switched := ?_, notState := nofun, shape := known.shape,
      knows := nofun, sleeping := ?_, owed := ?_ }
  · simp
  · simp [pc]
  · simp [pc]
  · simp [pc]

theorem sleepPut {lock : Lock} (pc : threads.pc task = .sleepPut chan (some lock) after)
    (held : threads.locks lock = some task) :
    monitor.Invariant guard ((threads.setLocks lock none).setPc task
      (.sleepChan chan (some lock) after)) := by
  have known := holds.atPc pc
  refine holds.quietStep task (.sleepChan chan (some lock) after)
    { pcs := rfl, same := ⟨rfl, rfl, rfl⟩, locks := setLocks_others (by simp [held, eq_comm]),
      lock := fun _ _ _ => id, guarded := ?_, own := known.own, visits := nofun, switched := ?_,
      notState := nofun, shape := known.shape, knows := nofun, sleeping := ?_, owed := ?_ }
  · simp
  · simp [pc]
  · simp [pc]
  · simp [pc]

theorem sleepPutNull (pc : threads.pc task = .sleepPut chan none after) :
    monitor.Invariant guard (threads.setPc task (.sleepChan chan none after)) := by
  have known := holds.atPc pc
  refine holds.quietStep task (.sleepChan chan none after)
    { pcs := rfl, same := ⟨rfl, rfl, rfl⟩, locks := fun _ _ _ => id,
      lock := fun _ _ _ => id, guarded := ?_, own := known.own, visits := nofun,
      switched := ?_, notState := nofun, shape := known.shape, knows := nofun,
      sleeping := ?_, owed := ?_ }
  · simp
  · simp [pc]
  · simp [pc]
  · simp [pc]

theorem yieldGet (pc : threads.pc task = .yieldGet after) (free : threads.lock task = none) :
    monitor.Invariant guard ((threads.setLock task (some (.task task))).setPc task
      (.yieldState after)) := by
  have known := holds.atPc pc
  refine holds.quietStep task (.yieldState after)
    { pcs := rfl, same := ⟨rfl, rfl, rfl⟩, locks := fun _ _ _ => id,
      lock := setLock_others (by simp [free]), guarded := ?_, own := ?_,
      visits := nofun, switched := ?_, notState := nofun, shape := known.shape,
      knows := nofun, sleeping := nofun, owed := ?_ }
  · simp
  · simp
  · simp [pc]
  · simp [pc]

theorem switch {after : After Lock Position} (pc : threads.pc task = .switch after)
    (held : threads.lock task = some (.task task)) :
    monitor.Invariant guard ((threads.setLock task (some .schedPut)).setPc task (.off after)) := by
  have known := holds.atPc pc
  refine holds.quietStep task (.off after)
    { pcs := rfl, same := ⟨rfl, rfl, rfl⟩, locks := fun _ _ _ => id,
      lock := setLock_others (by simp [held, eq_comm]), guarded := ?_, own := nofun,
      visits := nofun, switched := fun _ => trivial, notState := nofun, shape := ?_,
      knows := nofun, sleeping := nofun, owed := ?_ }
  · simp
  · cases after with
    | sleep lock next => exact known.shape
    | yield next => exact known.shape
  · simp [pc]

theorem putTask (pc : threads.pc task = .putTask lock after)
    (held : threads.lock task = some (.task task)) :
    monitor.Invariant guard ((threads.setLock task none).setPc task (.regain lock after)) := by
  have known := holds.atPc pc
  have shape : monitor.Regains guard lock after := known.shape
  cases lock with
  | none =>
    have outside : ¬ monitor.Holds after := shape.2 (by simp)
    refine holds.quietStep task (.run after)
      { pcs := rfl, same := ⟨rfl, rfl, rfl⟩, locks := fun _ _ _ => id,
        lock := setLock_others (by simp [held, eq_comm]), guarded := ?_, own := nofun,
        visits := nofun, switched := ?_, notState := nofun, shape := trivial,
        knows := ?_, sleeping := nofun, owed := ?_ }
    · simp [outside]
    · simp [pc]
    · rintro position ⟨⟩ isHeld
      exact absurd isHeld outside
    · simp [pc]
  | some lock =>
    have outside : lock ≠ guard → ¬ monitor.Holds after := fun different =>
      shape.2 (by simpa using different)
    refine holds.quietStep task (.spinGet lock after)
      { pcs := rfl, same := ⟨rfl, rfl, rfl⟩, locks := fun _ _ _ => id,
        lock := setLock_others (by simp [held, eq_comm]), guarded := ?_, own := nofun,
        visits := nofun, switched := ?_, notState := nofun, shape := ?_,
        knows := ?_, sleeping := nofun, owed := ?_ }
    · by_cases same : lock = guard
      · simp [same]
      · simp [same, outside same]
    · simp [pc]
    · exact fun same => shape.1 (by rw [same])
    · intro position isNext isHeld
      by_cases same : lock = guard
      · simp [same] at isNext
      · obtain rfl : after = position := by simpa [same] using isNext
        exact absurd isHeld (outside same)
    · simp [pc]

/-! ## The wakeup loop -/

theorem asleep_of_waiting (different : index ≠ task)
    (guarded : monitor.Guarded guard (threads.pc task))
    (visits : threads.lock index = some (.task task)) (waits : Waiting threads index chan) :
    monitor.Need chan threads.shared ∨
      threads.state index = .SLEEP ∧ threads.chan index = some chan := by
  rcases (holds.tasks index).asleep_of_visited different visits waits with
    asleep | ⟨lock, after, isPc⟩
  · exact .inr asleep
  · left
    have known := holds.atPc isPc
    by_cases same : lock = some guard
    · have left := known.guarded (.inl same)
      have right := (holds.tasks task).guarded guarded
      rw [left] at right
      exact absurd (Option.some.inj right) different
    · exact known.shape.2 same _

theorem wakeupSkip (pc : threads.pc task = .wakeupGet chan task after) :
    monitor.Invariant guard (threads.setPc task (.wakeupGet chan (task + 1) after)) := by
  have known := holds.atPc pc
  refine holds.quietStep task (.wakeupGet chan (task + 1) after)
    { pcs := rfl, same := ⟨rfl, rfl, rfl⟩, locks := fun _ _ _ => id,
      lock := fun _ _ _ => id, guarded := known.guarded, own := nofun, visits := nofun,
      switched := ?_, notState := nofun, shape := trivial, knows := known.knows,
      sleeping := nofun, owed := ?_ }
  · simp [pc]
  · intro channel other waits owed
    have different := (holds.tasks task).ne_of_waiting (by simp [pc]) (by simp [pc]) waits
    rw [pc] at owed
    obtain ⟨position, held, isHeld, owes | ⟨isChan, pending⟩⟩ := owed
    · exact .inr ⟨position, held, isHeld, .inl owes⟩
    · refine .inr ⟨position, held, isHeld, .inr ⟨isChan, ?_⟩⟩
      have : (other : Nat) ≠ task := fun same => different (Fin.ext same)
      omega

theorem wakeupDone {index : Nat} (pc : threads.pc task = .wakeupGet chan index after)
    (done : count ≤ index) :
    monitor.Invariant guard (threads.setPc task (.run after)) := by
  have known := holds.atPc pc
  refine holds.quietStep task (.run after)
    { pcs := rfl, same := ⟨rfl, rfl, rfl⟩, locks := fun _ _ _ => id,
      lock := fun _ _ _ => id, guarded := known.guarded, own := nofun, visits := nofun,
      switched := ?_, notState := nofun, shape := trivial, knows := known.knows,
      sleeping := nofun, owed := ?_ }
  · simp [pc]
  · intro channel other waits owed
    rw [pc] at owed
    obtain ⟨position, held, isHeld, owes | ⟨isChan, pending⟩⟩ := owed
    · exact .inr ⟨position, held, isHeld, .inl owes⟩
    · omega

theorem wakeupGet (pc : threads.pc task = .wakeupGet chan index after)
    (free : threads.lock index = none) :
    monitor.Invariant guard ((threads.setLock index (some (.task task))).setPc task
      (.wakeupTest chan index after)) := by
  have known := holds.atPc pc
  refine holds.quietStep task (.wakeupTest chan index after)
    { pcs := rfl, same := ⟨rfl, rfl, rfl⟩, locks := fun _ _ _ => id,
      lock := setLock_others (by simp [free]), guarded := known.guarded, own := nofun,
      visits := ?_, switched := ?_, notState := nofun, shape := trivial,
      knows := known.knows, sleeping := nofun, owed := ?_ }
  · rintro slot ⟨⟩
    simp
  · simp [pc]
  · intro channel other _ owed
    rw [pc] at owed
    exact .inr owed

theorem wakeupPut (pc : threads.pc task = .wakeupPut chan index after) :
    monitor.Invariant guard ((threads.setLock index none).setPc task
      (.wakeupGet chan (index + 1) after)) := by
  have known := holds.atPc pc
  have held := known.visits index rfl
  refine holds.quietStep task (.wakeupGet chan (index + 1) after)
    { pcs := rfl, same := ⟨rfl, rfl, rfl⟩, locks := fun _ _ _ => id,
      lock := setLock_others (by simp [held, eq_comm]), guarded := known.guarded,
      own := nofun, visits := nofun, switched := ?_, notState := nofun, shape := trivial,
      knows := known.knows, sleeping := nofun, owed := ?_ }
  · simp [pc]
  · intro channel other _ owed
    rw [pc] at owed
    exact .inr owed

section
variable (pc : threads.pc task = .wakeupTest chan index after)
include pc

theorem wakeupPass (notAsleep : ¬ (threads.state index = .SLEEP ∧ threads.chan index = some chan)) :
    monitor.Invariant guard (threads.setPc task (.wakeupPut chan index after)) := by
  have known := holds.atPc pc
  refine holds.quietStep task (.wakeupPut chan index after)
    { pcs := rfl, same := ⟨rfl, rfl, rfl⟩, locks := fun _ _ _ => id,
      lock := fun _ _ _ => id, guarded := known.guarded, own := nofun,
      visits := known.visits, switched := ?_, notState := nofun, shape := trivial,
      knows := known.knows, sleeping := nofun, owed := ?_ }
  · simp [pc]
  · intro channel other waits owed
    have guarded := owed.guarded
    rw [pc] at owed
    obtain ⟨position, held, isHeld, owes | ⟨rfl, pending⟩⟩ := owed
    · exact .inr ⟨position, held, isHeld, .inl owes⟩
    · have different := (holds.tasks task).ne_of_waiting (by simp [pc]) (by simp [pc]) waits
      by_cases same : other = index
      · subst same
        rcases holds.asleep_of_waiting different guarded (known.visits other rfl) waits with
          need | asleep
        · exact .inl need
        · exact absurd asleep notAsleep
      · refine .inr ⟨position, held, isHeld, .inr ⟨rfl, ?_⟩⟩
        exact lt_of_le_of_ne pending (Ne.symm same)

theorem wakeupFire (asleep : threads.state index = .SLEEP) :
    monitor.Invariant guard ((threads.setState index .READY).setPc task
      (.wakeupPut chan index after)) := by
  have known := holds.atPc pc
  have sleeper := (holds.tasks index).asleep asleep
  have different : task ≠ index := by
    rintro rfl
    simp [pc] at sleeper
  refine holds.localStep task (.wakeupPut chan index after)
    { pcs := rfl, frame := ?_, need := fun _ _ need => .inl need, waits := ?_, owed := ?_,
      locks := fun _ _ _ => id, shared := .inl rfl, known := ?_ }
  · refine ⟨fun _ _ _ => id, ?_, fun _ _ => rfl⟩
    intro other _ stillAsleep
    by_cases same : other = index
    · simp [same] at stillAsleep
    · simpa [same] using stillAsleep
  · rintro channel (sleeping | ⟨taskAsleep, chanIs⟩)
    · simp at sleeping
    · exact .inl (.inr ⟨by simpa [different] using taskAsleep, chanIs⟩)
  · intro channel other waits owed
    have notIndex : other ≠ index := by
      rintro rfl
      rcases waits with sleeping | ⟨stillAsleep, _⟩
      · have still : (threads.pc other).sleeping = some channel := by
          simpa [Ne.symm different] using sleeping
        cases (Pc.sleeping_of_switched sleeper).symm.trans still
      · simp at stillAsleep
    rw [pc] at owed
    obtain ⟨position, held, isHeld, owes | ⟨rfl, pending⟩⟩ := owed
    · exact .inr ⟨position, held, isHeld, .inl owes⟩
    · refine .inr ⟨position, held, isHeld, .inr ⟨rfl, ?_⟩⟩
      exact lt_of_le_of_ne pending (Ne.symm notIndex)
  · refine ⟨⟨False.elim, known.visits, ?_, by simp⟩, known.guarded, trivial, known.knows⟩
    intro taskAsleep
    exact known.asleep (by simpa [different] using taskAsleep)

end

/-! ## Stores to the task's own slot -/

theorem sleepChan (pc : threads.pc task = .sleepChan chan lock after) :
    monitor.Invariant guard ((threads.setChan task (some chan)).setPc task
      (.sleepState chan lock after)) := by
  have known := holds.atPc pc
  refine holds.localStep task (.sleepState chan lock after)
    { pcs := rfl, frame := ?_, need := fun _ _ need => .inl need, waits := ?_, owed := ?_,
      locks := fun _ _ _ => id, shared := .inl rfl, known := ?_ }
  · refine ⟨fun _ _ _ => id, fun _ _ => id, ?_⟩
    intro other different
    simp [different]
  · rintro channel (sleeping | ⟨asleep, _⟩)
    · exact .inl (.inl (by simpa [pc] using sleeping))
    · exact absurd (known.asleep asleep) id
  · simp [pc]
  · refine ⟨⟨known.own, nofun, known.asleep, ?_⟩, ?_, known.shape, nofun⟩
    · rintro channel _ _ ⟨⟩
      simp
    · simp

theorem sleepState (pc : threads.pc task = .sleepState chan lock after) :
    monitor.Invariant guard ((threads.setState task .SLEEP).setPc task
      (.switch (.sleep lock after))) := by
  have known := holds.atPc pc
  have chanIs := known.chans chan lock after rfl
  refine holds.localStep task (.switch (.sleep lock after))
    { pcs := rfl, frame := ?_, need := fun _ _ need => .inl need, waits := ?_, owed := ?_,
      locks := fun _ _ _ => id, shared := .inl rfl, known := ?_ }
  · refine ⟨fun _ _ _ => id, ?_, fun _ _ => rfl⟩
    intro other different
    simp [different]
  · rintro channel (sleeping | ⟨_, isChan⟩)
    · simp at sleeping
    · have same : chan = channel := Option.some.inj (chanIs.symm.trans isChan)
      exact .inl (.inl (by simp [pc, same]))
  · simp [pc]
  · refine ⟨⟨known.own, nofun, fun _ => trivial, nofun⟩, ?_, known.shape.1, nofun⟩
    simp

theorem yieldState (pc : threads.pc task = .yieldState after) :
    monitor.Invariant guard ((threads.setState task .READY).setPc task
      (.switch (.yield after))) := by
  have known := holds.atPc pc
  refine holds.localStep task (.switch (.yield after))
    { pcs := rfl, frame := ?_, need := fun _ _ need => .inl need, waits := ?_, owed := ?_,
      locks := fun _ _ _ => id, shared := .inl rfl, known := ?_ }
  · refine ⟨fun _ _ _ => id, ?_, fun _ _ => rfl⟩
    intro other different
    simp [different]
  · rintro channel (sleeping | ⟨asleep, _⟩)
    · simp at sleeping
    · simp at asleep
  · simp [pc]
  · refine ⟨⟨known.own, nofun, fun _ => trivial, nofun⟩, ?_, known.shape, nofun⟩
    simp

theorem chanNull (pc : threads.pc task = .chanNull lock after) :
    monitor.Invariant guard ((threads.setChan task none).setPc task (.putTask lock after)) := by
  have known := holds.atPc pc
  refine holds.localStep task (.putTask lock after)
    { pcs := rfl, frame := ?_, need := fun _ _ need => .inl need, waits := ?_, owed := ?_,
      locks := fun _ _ _ => id, shared := .inl rfl, known := ?_ }
  · refine ⟨fun _ _ _ => id, fun _ _ => id, ?_⟩
    intro other different
    simp [different]
  · rintro channel (sleeping | ⟨asleep, _⟩)
    · simp at sleeping
    · exact absurd (known.asleep asleep) id
  · simp [pc]
  · refine ⟨⟨known.own, nofun, known.asleep, nofun⟩, ?_, known.shape, nofun⟩
    simp

/-! ## The scheduler -/

theorem schedLock (holder : Option (Holder count))
    (notTask : ∀ other, threads.lock task ≠ some (.task other)) :
    monitor.Invariant guard (threads.setLock task holder) := by
  have known := holds.tasks task
  refine holds.quietStep task (threads.pc task)
    { pcs := (Function.update_eq_self _ _).symm, same := ⟨rfl, rfl, rfl⟩,
      locks := fun _ _ _ => id, lock := setLock_others fun other _ => notTask other,
      guarded := known.guarded, own := ?_, visits := ?_, switched := id, notState := ?_,
      shape := known.shape, knows := known.knows, sleeping := fun _ => id,
      owed := fun _ _ _ owed => .inr owed }
  · exact fun owns => absurd (known.own owns) (notTask task)
  · intro index visits
    have held := known.visits index visits
    have different : index ≠ task := by
      rintro rfl
      exact notTask index held
    simpa [different] using held
  · intro chan lock after isPc
    exact notTask task (known.own (by simp [isPc]))

theorem schedRun {after : After Lock Position} (pc : threads.pc task = .off after)
    (held : threads.lock task = some .schedTest) :
    monitor.Invariant guard (((threads.setState task .RUN).setLock task
      (some (.task task))).setPc task after.entry) := by
  have known := holds.atPc pc
  refine holds.localStep task after.entry
    { pcs := rfl, frame := ?_, need := fun _ _ need => .inl need, waits := ?_, owed := ?_,
      locks := fun _ _ _ => id, shared := .inl rfl, known := ?_ }
  · refine ⟨?_, ?_, fun _ _ => rfl⟩
    · exact setLock_others (by simp [held])
    · intro other different
      simp [different]
  · rintro channel (sleeping | ⟨asleep, _⟩)
    · cases after <;> simp at sleeping
    · simp at asleep
  · simp [pc]
  · have isAwake : (((threads.setState task .RUN).setLock task
        (some (.task task))).setPc task after.entry).state task ≠ .SLEEP := by
      simp
    have owns : (((threads.setState task .RUN).setLock task
        (some (.task task))).setPc task after.entry).lock task = some (.task task) := by
      simp
    cases after with
    | sleep lock next =>
      exact ⟨⟨fun _ => owns, by simp, fun asleep => absurd asleep isAwake, by simp⟩, by simp,
        known.shape, by simp⟩
    | yield next =>
      exact ⟨⟨fun _ => owns, by simp, fun asleep => absurd asleep isAwake, by simp⟩, by simp,
        ⟨by simp, fun _ => known.shape⟩, by simp⟩

end
end Invariant

/-! ## Client steps and whole runs -/

variable {shared shared' : Shared} {here : Position} {action : Action Lock Chan Position}

section
variable (allows : monitor.Allows guard shared here shared' action)
include allows

theorem Allows.owed (isHeld : monitor.Holds here) {chan : Chan}
    (owes : monitor.Owes here chan ∨ (monitor.Need chan shared ∧ ¬ monitor.Need chan shared'))
    (slot : Fin count) : monitor.Owed guard chan slot action.entry := by
  have passed : ∀ {next done}, monitor.PassesOn shared here shared' next done →
      ¬ done chan → monitor.Holds next ∧ monitor.Owes next chan := by
    intro next done passes notDone
    exact ⟨passes.1.mpr isHeld, (passes.2 isHeld).2 chan notDone owes⟩
  have settled : ¬ monitor.Settled shared here shared' := by
    intro settled
    rcases owes with owes | ⟨need, ended⟩
    · exact (settled.2 chan).1 owes
    · exact ended ((settled.2 chan).2 need)
  cases action with
  | goto next =>
    have goes := passed allows id
    exact ⟨next, rfl, goes.1, .inl goes.2⟩
  | wakeup channel next =>
    by_cases same : chan = channel
    · exact ⟨next, rfl, allows.1.mpr isHeld, .inr ⟨same.symm, Nat.zero_le _⟩⟩
    · have goes := passed allows same
      exact ⟨next, rfl, goes.1, .inl goes.2⟩
  | spinGet lock next =>
    by_cases same : lock = guard
    · exact absurd isHeld (allows.1 same).1
    · have goes := passed (allows.2 same) id
      exact ⟨next, by simp [same], goes.1, .inl goes.2⟩
  | spinPut lock next =>
    by_cases same : lock = guard
    · exact absurd (allows.1 same).1 settled
    · have goes := passed (allows.2 same) id
      exact ⟨next, by simp [same], goes.1, .inl goes.2⟩
  | sleep channel lock next =>
    by_cases same : lock = some guard
    · exact absurd (allows.1 same).1 settled
    · exact absurd isHeld (allows.2 same).1
  | yield next => exact absurd isHeld allows.1

theorem Allows.guarded
    (guarded : monitor.Guarded guard (action.entry : Pc count Lock Chan Position)) :
    monitor.Holds here := by
  cases action with
  | goto next | wakeup _ next => exact allows.1.mp (by simpa using guarded)
  | spinGet lock next =>
    by_cases same : lock = guard
    · simp [same] at guarded
    · exact (allows.2 same).1.mp (by simpa [same] using guarded)
  | spinPut lock next =>
    by_cases same : lock = guard
    · exact (allows.1 same).1.1
    · exact (allows.2 same).1.mp (by simpa [same] using guarded)
  | sleep channel lock next =>
    have same : lock = some guard := by simpa using guarded
    exact (allows.1 same).1.1
  | yield next => simp at guarded

end

omit [DecidableEq Lock] in
theorem Allows.shape (allows : monitor.Allows guard shared here shared' action) :
    monitor.Shape guard (action.entry : Pc count Lock Chan Position) := by
  cases action with
  | goto | wakeup => trivial
  | spinGet lock next => exact fun same => (allows.1 same).2
  | spinPut lock next => exact fun same => (allows.1 same).2
  | sleep channel lock next =>
    exact ⟨⟨fun same => (allows.1 same).2.2, fun other => (allows.2 other).2.1⟩,
      fun other => (allows.2 other).2.2⟩
  | yield next => exact allows.2

theorem Allows.knows {position : Position}
    (allows : monitor.Allows guard shared here shared' action)
    (held : (action.entry : Pc count Lock Chan Position).held guard = some position)
    (isHeld : monitor.Holds position) : monitor.Knows position shared' := by
  have passed : ∀ {done}, monitor.PassesOn shared here shared' position done →
      monitor.Knows position shared' := fun passes =>
    (passes.2 (passes.1.mp isHeld)).1
  cases action with
  | goto next =>
    obtain rfl : next = position := by simpa using held
    exact passed allows
  | wakeup channel next =>
    obtain rfl : next = position := by simpa using held
    exact passed allows
  | spinGet lock next =>
    by_cases same : lock = guard
    · simp [same] at held
    · obtain rfl : next = position := by simpa [same] using held
      exact passed (allows.2 same)
  | spinPut lock next =>
    by_cases same : lock = guard
    · simp [same] at held
    · obtain rfl : next = position := by simpa [same] using held
      exact passed (allows.2 same)
  | sleep | yield => simp at held

namespace Invariant

variable {program : Program Lock Chan Shared Position Input}
variable {task : Fin count}

theorem client (holds : monitor.Invariant guard threads)
    (discipline : monitor.Discipline program guard) {here : Position} {input : Input}
    {shared : Shared} {action : Action Lock Chan Position} (pc : threads.pc task = .run here)
    (taken : program.step threads.shared here input = some (shared, action)) :
    monitor.Invariant guard ({ threads with shared := shared }.setPc task action.entry) := by
  have known := holds.atPc pc
  have allows := discipline.allows taken fun isHeld => known.knows here rfl isHeld
  have isGuarded : monitor.Holds here → monitor.Guarded guard (threads.pc task) := by
    intro isHeld
    rw [pc]
    exact .inr ⟨here, rfl, isHeld⟩
  refine holds.localStep task action.entry
    { pcs := rfl, frame := ⟨fun _ _ _ => id, fun _ _ => id, fun _ _ => rfl⟩, need := ?_,
      waits := ?_, owed := ?_, locks := fun _ _ _ => id, shared := ?_, known := ?_ }
  · intro chan other need
    by_cases isHeld : monitor.Holds here
    · by_cases ended : monitor.Need chan shared
      · exact .inl ended
      · exact .inr (allows.owed isHeld (.inr ⟨need, ended⟩) other)
    · exact .inl (discipline.unguarded taken isHeld ▸ need)
  · rintro chan (sleeping | ⟨asleep, _⟩)
    · right
      cases action with
      | sleep channel lock next =>
        obtain rfl : channel = chan := by simpa using sleeping
        by_cases same : lock = some guard
        · exact (allows.1 same).2.1
        · exact (allows.2 same).2.2 _
      | _ => simp at sleeping
    · exact absurd (known.asleep asleep) id
  · intro chan other _ owed
    rw [pc] at owed
    obtain ⟨position, ⟨⟩, isHeld, owes | pending⟩ := owed
    · exact .inr (allows.owed isHeld (.inl owes) other)
    · exact absurd pending id
  · by_cases isHeld : monitor.Holds here
    · exact .inr (isGuarded isHeld)
    · exact .inl (discipline.unguarded taken isHeld)
  · refine ⟨⟨?_, ?_, fun asleep => absurd (known.asleep asleep) id, ?_⟩, ?_, allows.shape,
      fun _ => allows.knows⟩
    · cases action <;> simp
    · cases action <;> simp
    · cases action <;> simp
    · exact fun guarded => known.guarded (.inr ⟨here, rfl, allows.guarded guarded⟩)

theorem schedule (holds : monitor.Invariant guard threads)
    (taken : threads.schedule task = some next) : monitor.Invariant guard next := by
  unfold Threads.schedule at taken
  split at taken
  case h_1 free => exact Option.some.inj taken ▸ holds.schedLock _ (by simp [free])
  case h_2 held =>
    split at taken
    case isTrue =>
      split at taken
      case h_1 after pc => exact Option.some.inj taken ▸ holds.schedRun pc held
      case h_2 => cases taken
    case isFalse => exact Option.some.inj taken ▸ holds.schedLock _ (by simp [held])
  case h_3 held => exact Option.some.inj taken ▸ holds.schedLock _ (by simp [held])
  case h_4 => cases taken

variable [DecidableEq Chan]

theorem advance (holds : monitor.Invariant guard threads)
    (taken : threads.advance task = some next) : monitor.Invariant guard next := by
  unfold Threads.advance at taken
  split at taken
  case h_1 => cases taken
  case h_2 => cases taken
  case h_3 lock after pc =>
    rcases ite_none_right_eq_some.mp taken with ⟨free, ⟨⟩⟩
    exact holds.spinGet pc free
  case h_4 lock after pc =>
    rcases ite_none_right_eq_some.mp taken with ⟨held, ⟨⟩⟩
    exact holds.spinPut pc held
  case h_5 chan lock after pc =>
    rcases ite_none_right_eq_some.mp taken with ⟨free, ⟨⟩⟩
    exact holds.sleepGet pc free
  case h_6 chan after pc => exact Option.some.inj taken ▸ holds.sleepPutNull pc
  case h_7 chan lock after pc =>
    rcases ite_none_right_eq_some.mp taken with ⟨held, ⟨⟩⟩
    exact holds.sleepPut pc held
  case h_8 chan lock after pc => exact Option.some.inj taken ▸ holds.sleepChan pc
  case h_9 chan lock after pc => exact Option.some.inj taken ▸ holds.sleepState pc
  case h_10 after pc =>
    rcases ite_none_right_eq_some.mp taken with ⟨free, ⟨⟩⟩
    exact holds.yieldGet pc free
  case h_11 after pc => exact Option.some.inj taken ▸ holds.yieldState pc
  case h_12 after pc =>
    rcases ite_none_right_eq_some.mp taken with ⟨held, ⟨⟩⟩
    exact holds.switch pc held
  case h_13 lock after pc => exact Option.some.inj taken ▸ holds.chanNull pc
  case h_14 lock after pc =>
    rcases ite_none_right_eq_some.mp taken with ⟨held, ⟨⟩⟩
    exact holds.putTask pc held
  case h_15 chan index after pc =>
    split at taken
    case isTrue inRange =>
      split at taken
      case isTrue same =>
        subst same
        exact Option.some.inj taken ▸ holds.wakeupSkip pc
      case isFalse =>
        rcases ite_none_right_eq_some.mp taken with ⟨free, ⟨⟩⟩
        exact holds.wakeupGet pc free
    case isFalse done =>
      exact Option.some.inj taken ▸ holds.wakeupDone pc (Nat.le_of_not_lt done)
  case h_16 chan index after pc =>
    split at taken
    case isTrue asleep => exact Option.some.inj taken ▸ holds.wakeupFire pc asleep.1
    case isFalse notAsleep => exact Option.some.inj taken ▸ holds.wakeupPass pc notAsleep
  case h_17 chan index after pc =>
    rcases ite_none_right_eq_some.mp taken with ⟨held, ⟨⟩⟩
    exact holds.wakeupPut pc

theorem step (holds : monitor.Invariant guard threads)
    (discipline : monitor.Discipline program guard) {label : Threads.Label count Input}
    (taken : threads.step program label = some next) : monitor.Invariant guard next := by
  cases label with
  | client task input =>
    simp only [Threads.step] at taken
    split at taken
    case h_1 here pc =>
      rcases map_eq_some_iff.mp taken with ⟨⟨shared, action⟩, stepped, rfl⟩
      exact holds.client discipline pc stepped
    case h_2 => cases taken
  | advance task => exact holds.advance taken
  | schedule task => exact holds.schedule taken

theorem initial (discipline : monitor.Discipline program guard) {InitialShared : Shared → Prop}
    (isInitial : (Threads.machine count program InitialShared).Initial threads) :
    monitor.Invariant guard threads := by
  obtain ⟨_, locks, state, chans, lock, pcs⟩ := isInitial
  refine ⟨?_, ?_⟩
  · intro task
    rw [pcs]
    refine ⟨⟨nofun, nofun, fun _ => trivial, nofun⟩, ?_, discipline.start, nofun⟩
    simp
  · rintro task chan (sleeping | ⟨asleep, _⟩)
    · simp [pcs] at sleeping
    · simp [state] at asleep

end Invariant

/-- No wakeup is lost: with the guard free, a task sleeps on a channel only while
it is right to wait there. -/
theorem no_lost_wakeup [DecidableEq Chan] {program : Program Lock Chan Shared Position Input}
    (discipline : monitor.Discipline program guard) {InitialShared : Shared → Prop}
    (reached : (Threads.machine count program InitialShared).Reachable threads)
    (free : threads.locks guard = none) {task : Fin count} {chan : Chan}
    (asleep : threads.state task = .SLEEP) (chanIs : threads.chan task = some chan) :
    monitor.Need chan threads.shared := by
  have holds := reached.invariant (monitor.Invariant guard)
    (fun _ isInitial => Invariant.initial discipline isInitial)
    (fun _ _ _ holds _ taken => holds.step discipline taken)
  rcases holds.waiting task chan (.inr ⟨asleep, chanIs⟩) with need | ⟨holder, owed⟩
  · exact need
  · have held := (holds.tasks holder).guarded owed.guarded
    simp [free] at held

end Monitor
end Tnix.Task
