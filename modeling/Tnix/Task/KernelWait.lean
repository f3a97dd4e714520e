import Mathlib.Data.List.TakeWhile
import Tnix.Task.KernelSchedule

/-! # Waiting for children

`sys_wait` tests its children and then sleeps, with no lock over both. A child that
exits after its test and has done its wakeup before the parent sleeps is missed, and
so is a zombie that a dying parent hands to `task_queue[0]` while that sleeps. -/

namespace Tnix.Task

open Function

/-! ## Scanning a list of children -/

theorem mem_of_mem_takeWhile {α : Type} {p : α → Bool} (before after : List α)
    {stop item : α} (stops : p stop = false)
    (member : item ∈ (before ++ stop :: after).takeWhile p) : item ∈ before := by
  induction before with
  | nil => simp [stops] at member
  | cons first rest induction =>
    rw [List.cons_append, List.takeWhile_cons] at member
    split at member
    · rcases List.mem_cons.mp member with rfl | member
      · exact List.mem_cons_self
      · exact List.mem_cons_of_mem _ (induction member)
    · cases member

variable {childs : List Slot} {child slot : Slot}

theorem split_at_child (member : child ∈ childs) :
    ∃ rest, childs = childs.takeWhile (· ≠ child) ++ child :: rest ∧
      nextChild childs child = rest.head? := by
  have whole := List.takeWhile_append_dropWhile (p := fun slot => decide (slot ≠ child))
    (l := childs)
  cases isRest : childs.dropWhile fun slot => decide (slot ≠ child) with
  | nil =>
    have different := List.dropWhile_eq_nil_iff.mp isRest child member
    simp at different
  | cons first rest =>
    have stops := List.head?_dropWhile_not (fun slot => decide (slot ≠ child)) childs
    rw [isRest] at stops
    have isChild : first = child := by simpa using stops
    subst isChild
    refine ⟨rest, ?_, ?_⟩
    · rw [isRest] at whole
      exact whole.symm
    · rw [nextChild, isRest]
      rfl

theorem scanned_first (first : childs.head? = some child) :
    childs.takeWhile (· ≠ child) = [] := by
  cases childs with
  | nil => cases first
  | cons head rest => simp [Option.some.inj first]

section
variable (member : child ∈ childs)
include member

theorem scanned_next {other : Slot}
    (isNext : nextChild childs child = some other) (scanned : slot ∈ childs.takeWhile (· ≠ other)) :
    slot ∈ childs.takeWhile (· ≠ child) ∨ slot = child := by
  rcases split_at_child member with ⟨rest, whole, next⟩
  rw [isNext] at next
  cases rest with
  | nil => cases next
  | cons head rest =>
    cases next
    have inFront : slot ∈ childs.takeWhile (· ≠ child) ++ [child] := by
      refine mem_of_mem_takeWhile (p := fun slot => decide (slot ≠ other)) _ rest
        (decide_eq_false fun different => different rfl) ?_
      rw [List.append_assoc, List.singleton_append, ← whole]
      exact scanned
    simpa using inFront

theorem scanned_last (last : nextChild childs child = none) (listed : slot ∈ childs) :
    slot ∈ childs.takeWhile (· ≠ child) ∨ slot = child := by
  rcases split_at_child member with ⟨rest, whole, next⟩
  rw [last] at next
  rw [List.head?_eq_none_iff.mp next.symm] at whole
  rw [whole] at listed
  simpa using listed

theorem scanned_append {added : Slot} (scanned : slot ∈ (childs ++ [added]).takeWhile (· ≠ child)) :
    slot ∈ childs.takeWhile (· ≠ child) := by
  rcases split_at_child member with ⟨rest, whole, _⟩
  refine mem_of_mem_takeWhile (p := fun slot => decide (slot ≠ child)) _ (rest ++ [added])
    (decide_eq_false fun different => different rfl) ?_
  rw [← List.cons_append, ← List.append_assoc, ← whole]
  exact scanned

end

/-! ## What a program counter says about waiting -/

/-- Where `sleep` returns to, and the channel it may have been called with. -/
def SleepReturn.SleepsOn (self : Slot) : SleepReturn → Channel → Prop
  | .waitScan, chan => chan = .childs self
  | .run, chan => ∀ task, chan ≠ .childs task

namespace TaskPc

/-- The child that has got its parent and is not on the list yet. -/
def initialised : TaskPc → Option Slot
  | .stackPage child | .laterPages child | .forkPush child => some child
  | _ => none

/-- The channel of a sleep under way fits the place it returns to. -/
def ChanOk (self : Slot) (chan : Option Channel) : TaskPc → Prop
  | .sleepLock wanted after | .sleepChan wanted after => after.SleepsOn self wanted
  | .sleepState after => ∃ wanted, chan = some wanted ∧ after.SleepsOn self wanted
  | _ => True

/-- `sys_wait` has tested the child in the present scan and does not sleep yet. -/
def Scanned (childs : List Slot) (child : Slot) : TaskPc → Prop
  | .waitVisit other => child ∈ childs.takeWhile (· ≠ other)
  | .sleepLock _ .waitScan | .sleepChan _ .waitScan | .sleepState .waitScan => child ∈ childs
  | _ => False

/-- An exit or kill has set `EXIT` and has still to come to the slot with its wakeup
on the list of children; `parent` is that of the exiting task. -/
def Wakes (parent : Option Slot) (slot : Slot) : TaskPc → Prop
  | .exitWake => parent = some slot
  | .wakeupLock chan index .exitLock => chan = .childs slot ∧ index ≤ slot
  | .wakeupTest chan other .exitLock => chan = .childs slot ∧ other ≤ slot
  | .wakeupPut chan other .exitLock => chan = .childs slot ∧ other < slot
  | _ => False

/-- An exit or kill is between its store of `EXIT` and the end of its wakeup. -/
def Leaving : TaskPc → Prop
  | .exitWake | .wakeupLock _ _ .exitLock | .wakeupTest _ _ .exitLock
  | .wakeupPut _ _ .exitLock => True
  | _ => False

theorem Wakes.leaving {pc : TaskPc} {parent : Option Slot} {slot : Slot}
    (wakes : pc.Wakes parent slot) : pc.Leaving := by
  cases pc with
  | exitWake => trivial
  | wakeupLock chan index after | wakeupTest chan other after | wakeupPut chan other after =>
    cases after with
    | run => exact absurd wakes id
    | exitLock => trivial
  | _ => exact absurd wakes id

end TaskPc

namespace Kernel

variable {Cpu Page : Type}

/-- The CPU has still to wake the slot for an exit. -/
def WakesFor (kernel : Kernel Cpu Page) (cpu : Cpu) (slot : Slot) : Prop :=
  ∃ exiting pc, kernel.pc cpu = .task exiting pc ∧ pc.Wakes (kernel.parent exiting) slot

def WaitsAsleep (kernel : Kernel Cpu Page) (slot : Slot) : Prop :=
  kernel.state slot = .SLEEP ∧ kernel.chan slot = some (.childs slot)

structure Watched (kernel : Kernel Cpu Page) : Prop where
  parent : ∀ slot, ∀ child ∈ kernel.childs slot, kernel.parent child = some slot
  initialised : ∀ cpu slot pc child, kernel.pc cpu = .task slot pc →
    pc.initialised = some child → kernel.parent child = some slot
  chans : ∀ cpu slot pc, kernel.pc cpu = .task slot pc → pc.ChanOk slot (kernel.chan slot)
  scanned : ∀ cpu slot pc child, kernel.pc cpu = .task slot pc →
    pc.Scanned (kernel.childs slot) child → kernel.state child ≠ .EXIT
  asleep : ∀ slot child, kernel.WaitsAsleep slot → child ∈ kernel.childs slot →
    kernel.state child = .EXIT → ∃ cpu, kernel.WakesFor cpu slot

/-- No state, channel, parent or list of children has changed. -/
def SameFamily (kernel next : Kernel Cpu Page) : Prop :=
  next.state = kernel.state ∧ next.chan = kernel.chan ∧ next.parent = kernel.parent ∧
    next.childs = kernel.childs

/-- The condition on runs. A task exits only while its parent is not between its test
and its sleep; an exited child is handed to `task_queue[0]` only while that neither
sleeps in `sys_wait` nor is about to; and `sys_wait` finds only children that have
switched away. -/
structure ExitsSeen (kernel : Kernel Cpu Page) (label : Label Cpu Page) : Prop where
  finds : kernel.FindsLeft label
  exits : ∀ slot, kernel.pc label.cpu = .task slot .exitState → ∀ other parent pc,
    kernel.pc other = .task parent pc → ¬ pc.Scanned (kernel.childs parent) slot
  hands : ∀ slot child saved, kernel.pc label.cpu = .task slot (.exitMove child saved) →
    kernel.state child = .EXIT → ¬ kernel.WaitsAsleep 0 ∧ ∀ other pc,
      kernel.pc other = .task 0 pc → ¬ pc.Scanned (kernel.childs 0 ++ [child]) child

variable [DecidableEq Cpu] {kernel next : Kernel Cpu Page}

omit [DecidableEq Cpu] in
theorem setChilds_others (kernel : Kernel Cpu Page) (list : List Slot) (slot : Slot)
    (notSelf : slot ≠ self) : (∀ child ∈ update kernel.childs self list slot,
      child ∈ kernel.childs slot) ∧ ∀ other, other ≠ cpu → kernel.Executes other slot →
        update kernel.childs self list slot = kernel.childs slot := by
  rw [update_of_ne notSelf]
  exact ⟨fun _ => id, fun _ _ _ => rfl⟩

namespace Watched

/-- What has to be checked of a step of one CPU. -/
structure Step (kernel next : Kernel Cpu Page) (cpu : Cpu) (pc : CpuPc) : Prop where
  pcs : next.pc = update kernel.pc cpu pc
  parent : ∀ slot, ∀ child ∈ next.childs slot, next.parent child = some slot
  kept : ∀ other slot task child, other ≠ cpu → kernel.pc other = .task slot task →
    task.initialised = some child → next.parent child = kernel.parent child
  chan : ∀ other slot, other ≠ cpu → kernel.Executes other slot →
    next.chan slot = kernel.chan slot
  others : ∀ other slot task child, other ≠ cpu → kernel.pc other = .task slot task →
    task.Scanned (next.childs slot) child → next.state child ≠ .EXIT
  initialised : ∀ slot task child, pc = .task slot task →
    task.initialised = some child → next.parent child = some slot
  chans : ∀ slot task, pc = .task slot task → task.ChanOk slot (next.chan slot)
  scanned : ∀ slot task child, pc = .task slot task →
    task.Scanned (next.childs slot) child → next.state child ≠ .EXIT
  asleep : ∀ slot child, next.WaitsAsleep slot → child ∈ next.childs slot →
    next.state child = .EXIT → ∃ waker, next.WakesFor waker slot

theorem step (watched : kernel.Watched) (cpu : Cpu) (pc : CpuPc)
    (change : Step kernel next cpu pc) : next.Watched := by
  have moved : next.pc cpu = pc := by
    rw [change.pcs, update_self]
  have stays : ∀ other, other ≠ cpu → next.pc other = kernel.pc other := by
    intro other different
    rw [change.pcs, update_of_ne different]
  refine { parent := change.parent, initialised := ?_, chans := ?_, scanned := ?_,
           asleep := change.asleep }
  · intro other slot task child there initialised
    by_cases same : other = cpu
    · rw [same, moved] at there
      exact change.initialised slot task child there initialised
    · rw [stays other same] at there
      rw [change.kept other slot task child same there initialised]
      exact watched.initialised other slot task child there initialised
  · intro other slot task there
    by_cases same : other = cpu
    · rw [same, moved] at there
      exact change.chans slot task there
    · rw [stays other same] at there
      rw [change.chan other slot same ⟨task, there⟩]
      exact watched.chans other slot task there
  · intro other slot task child there
    by_cases same : other = cpu
    · rw [same, moved] at there
      exact change.scanned slot task child there
    · rw [stays other same] at there
      exact change.others other slot task child same there

variable {cpu : Cpu} {slot self other child : Slot} {pc after : TaskPc}

theorem wakesFor_of_ne {other : Cpu} {pc : CpuPc} (pcs : next.pc = update kernel.pc cpu pc)
    (different : other ≠ cpu) (parent : ∀ exiting, kernel.pc other = .task exiting .exitWake →
      kernel.parent exiting = some slot → next.parent exiting = kernel.parent exiting)
    (wakes : kernel.WakesFor other slot) : next.WakesFor other slot := by
  rcases wakes with ⟨exiting, task, there, wakes⟩
  refine ⟨exiting, task, ?_, ?_⟩
  · rw [pcs, update_of_ne different, there]
  · cases task with
    | exitWake =>
      rw [parent exiting there wakes]
      exact wakes
    | wakeupLock chan index after | wakeupTest chan index after | wakeupPut chan index after =>
      cases after <;> exact wakes
    | _ => exact wakes

section
variable (watched : kernel.Watched)
include watched

theorem quiet {pc : CpuPc} (pcs : next.pc = update kernel.pc cpu pc) (same : kernel.SameFamily next)
    (initialised : ∀ slot task child, pc = .task slot task → task.initialised = some child →
      kernel.parent child = some slot)
    (chans : ∀ slot task, pc = .task slot task → task.ChanOk slot (kernel.chan slot))
    (scanned : ∀ slot task child, pc = .task slot task →
      task.Scanned (kernel.childs slot) child → kernel.state child ≠ .EXIT)
    (wakes : ∀ slot, kernel.WaitsAsleep slot → kernel.WakesFor cpu slot → next.WakesFor cpu slot) :
    next.Watched := by
  rcases same with ⟨state, chan, parent, childs⟩
  refine watched.step cpu pc
    { pcs := pcs, parent := ?_, kept := ?_, chan := ?_, others := ?_, initialised := ?_,
      chans := ?_, scanned := ?_, asleep := ?_ }
  · rw [childs, parent]
    exact watched.parent
  · intro other slot task child _ _ _
    rw [parent]
  · intro other slot _ _
    rw [chan]
  · intro other slot task child _ there
    rw [childs, state]
    exact watched.scanned other slot task child there
  · rw [parent]
    exact initialised
  · rw [chan]
    exact chans
  · rw [childs, state]
    exact scanned
  · intro slot child waits member zombie
    rw [WaitsAsleep, state, chan] at waits
    rw [childs] at member
    rw [state] at zombie
    rcases watched.asleep slot child waits member zombie with ⟨waker, wakesFor⟩
    by_cases isCpu : waker = cpu
    · subst isCpu
      exact ⟨waker, wakes slot waits wakesFor⟩
    · exact ⟨waker, wakesFor_of_ne pcs isCpu (fun _ _ _ => by rw [parent]) wakesFor⟩

section
variable (atPc : kernel.pc cpu = .task slot pc)
include atPc

variable (pcs : next.pc = update kernel.pc cpu (.task slot after))
include pcs

variable (same : kernel.SameFamily next)
include same

section
variable (initialised : after.initialised = none ∨ after.initialised = pc.initialised)
include initialised

theorem quietTask
    (chans : after.ChanOk slot (kernel.chan slot))
    (scanned : ∀ child, after.Scanned (kernel.childs slot) child →
      pc.Scanned (kernel.childs slot) child ∨ kernel.state child ≠ .EXIT)
    (wakes : ∀ index, kernel.WaitsAsleep index → pc.Wakes (kernel.parent slot) index →
      after.Wakes (kernel.parent slot) index) : next.Watched := by
  refine watched.quiet pcs same ?_ ?_ ?_ ?_
  · rintro index task child ⟨⟩ isInitialised
    rcases initialised with isNone | isSame
    · rw [isNone] at isInitialised
      cases isInitialised
    · exact watched.initialised cpu slot pc child atPc (isSame ▸ isInitialised)
  · rintro index task ⟨⟩
    exact chans
  · rintro index task child ⟨⟩ isScanned
    rcases scanned child isScanned with before | alive
    · exact watched.scanned cpu slot pc child atPc before
    · exact alive
  · rintro index waits ⟨exiting, task, there, wakesFor⟩
    rw [atPc] at there
    cases there
    refine ⟨slot, after, by rw [pcs, update_self], ?_⟩
    rw [same.2.2.1]
    exact wakes index waits wakesFor

theorem idle
    (chans : ∀ chan, after.ChanOk slot chan)
    (scanned : ∀ childs child, ¬ after.Scanned childs child) (wakes : ¬ pc.Leaving) :
    next.Watched :=
  watched.quietTask atPc pcs same initialised (chans _)
    (fun child isScanned => absurd isScanned (scanned _ child))
    fun _ _ wakesFor => absurd wakesFor.leaving wakes

end

theorem waking
    (initialised : after.initialised = none) (chans : ∀ chan, after.ChanOk slot chan)
    (scanned : ∀ childs child, ¬ after.Scanned childs child)
    (wakes : ∀ index, kernel.WaitsAsleep index → pc.Wakes (kernel.parent slot) index →
      after.Wakes (kernel.parent slot) index) : next.Watched :=
  watched.quietTask atPc pcs same (.inl initialised) (chans _)
    (fun child isScanned => absurd isScanned (scanned _ child)) wakes

theorem scans
    (initialised : after.initialised = none) (chans : after.ChanOk slot (kernel.chan slot))
    (scanned : ∀ child, after.Scanned (kernel.childs slot) child →
      pc.Scanned (kernel.childs slot) child ∨ kernel.state child ≠ .EXIT)
    (wakes : ¬ pc.Leaving) : next.Watched :=
  watched.quietTask atPc pcs same (.inl initialised) chans scanned
    fun _ _ wakesFor => absurd wakesFor.leaving wakes

end

theorem move (sound : kernel.Sound) (atPc : kernel.pc cpu = .task slot pc)
    (current : kernel.curTask cpu = some self) (moves : kernel.Move self pc after)
    (foreign : ∀ chan, pc = .run → after = .sleepLock chan .run → ∀ task, chan ≠ .childs task) :
    (kernel.setPc cpu (.task slot after)).Watched := by
  rcases sound.self_eq atPc current with rfl
  have listed := fun child => sound.lists cpu self pc child atPc
  cases moves with
  | yield | wakeup | fork | exit | kill | waitNone | wait | allocSkip | exitDone | exitNext
  | cleanDone | waitZombie | waitCopied | waitKilled =>
    exact watched.idle atPc rfl ⟨rfl, rfl, rfl, rfl⟩ (.inl rfl) (fun _ => trivial)
      (fun _ _ => id) id
  | pagesDone =>
    exact watched.idle atPc rfl ⟨rfl, rfl, rfl, rfl⟩ (.inr rfl) (fun _ => trivial)
      (fun _ _ => id) id
  | sleep =>
    exact watched.idle atPc rfl ⟨rfl, rfl, rfl, rfl⟩ (.inl rfl)
      (fun _ => foreign _ rfl rfl) (fun _ _ => id) id
  | exitWake parentIs =>
    refine watched.waking atPc rfl ⟨rfl, rfl, rfl, rfl⟩ rfl (fun _ => trivial)
      (fun _ _ => id) ?_
    intro index _ isParent
    have same : _ = index := Option.some.inj (parentIs.symm.trans isParent)
    exact ⟨by rw [same], Nat.zero_le _⟩
  | @wakeupSkip chan after =>
    refine watched.waking atPc rfl ⟨rfl, rfl, rfl, rfl⟩ rfl (fun _ => trivial)
      (fun _ _ => id) ?_
    intro index waits wakes
    cases after with
    | run => exact absurd wakes id
    | exitLock =>
      -- the exiting task does not sleep
      have different : self ≠ index := by
        rintro rfl
        have exited : kernel.state self = .EXIT := sound.ownState atPc
        rw [waits.1] at exited
        cases exited
      have : (self : Nat) ≠ index := fun same => different (Fin.ext same)
      exact ⟨wakes.1, by have := wakes.2; omega⟩
  | @wakeupDone chan index after done =>
    refine watched.waking atPc rfl ⟨rfl, rfl, rfl, rfl⟩ (by cases after <;> rfl)
      (by cases after <;> exact fun _ => trivial) (by cases after <;> exact fun _ _ => id) ?_
    intro slot _ wakes
    cases after with
    | run => exact absurd wakes id
    | exitLock => exact absurd (Nat.le_trans done wakes.2) (Nat.not_le_of_gt slot.isLt)
  | @wakeupPass chan other after pass =>
    refine watched.waking atPc rfl ⟨rfl, rfl, rfl, rfl⟩ rfl (fun _ => trivial)
      (fun _ _ => id) ?_
    intro index waits wakes
    cases after with
    | run => exact absurd wakes id
    | exitLock =>
      rcases wakes with ⟨rfl, upTo⟩
      refine ⟨rfl, lt_of_le_of_ne upTo ?_⟩
      rintro rfl
      exact pass waits
  | waitEmpty isEmpty =>
    refine watched.scans atPc rfl ⟨rfl, rfl, rfl, rfl⟩ rfl rfl ?_ id
    intro child inList
    simp [TaskPc.Scanned, isEmpty] at inList
  | waitFirst first =>
    refine watched.scans atPc rfl ⟨rfl, rfl, rfl, rfl⟩ rfl trivial ?_ id
    intro child inFront
    simp only [TaskPc.Scanned, scanned_first first] at inFront
    cases inFront
  | @waitSleep child alive last =>
    refine watched.scans atPc rfl ⟨rfl, rfl, rfl, rfl⟩ rfl rfl ?_ id
    intro other inList
    rcases scanned_last (listed child rfl) last inList with before | rfl
    · exact .inl before
    · exact .inr alive
  | @waitNext child other alive isNext =>
    refine watched.scans atPc rfl ⟨rfl, rfl, rfl, rfl⟩ rfl trivial ?_ id
    intro slot inFront
    rcases scanned_next (listed child rfl) isNext inFront with before | rfl
    · exact .inl before
    · exact .inr alive

theorem gets (sound : kernel.Sound) (atPc : kernel.pc cpu = .task slot pc)
    (current : kernel.curTask cpu = some self) (gets : Locks self pc other after) :
    ((kernel.setLock other (some cpu)).setPc cpu (.task slot after)).Watched := by
  rcases sound.self_eq atPc current with rfl
  cases gets with
  | yield | exit | alloc | exitChild =>
    exact watched.idle atPc rfl ⟨rfl, rfl, rfl, rfl⟩ (.inl rfl) (fun _ => trivial)
      (fun _ _ => id) id
  | @sleep chan after =>
    refine watched.scans atPc rfl ⟨rfl, rfl, rfl, rfl⟩ rfl ?_ ?_ id
    · exact watched.chans cpu self (.sleepLock chan after) atPc
    · cases after with
      | run => exact fun _ scanned => absurd scanned id
      | waitScan => exact fun _ => .inl
  | @wakeup chan after other different =>
    refine watched.waking atPc rfl ⟨rfl, rfl, rfl, rfl⟩ rfl (fun _ => trivial)
      (fun _ _ => id) ?_
    cases after <;> exact fun _ _ => id

theorem puts (atPc : kernel.pc cpu = .task slot pc) (puts : Puts self pc other after) :
    ((kernel.setLock other none).setPc cpu (.task slot after)).Watched := by
  cases puts with
  | @putLock after =>
    cases after <;> exact watched.idle atPc rfl ⟨rfl, rfl, rfl, rfl⟩ (.inl rfl)
      (fun _ => trivial) (fun _ _ => id) id
  | allocSkip | alloc | exitChild =>
    exact watched.idle atPc rfl ⟨rfl, rfl, rfl, rfl⟩ (.inl rfl) (fun _ => trivial)
      (fun _ _ => id) id
  | @wakeup chan after other =>
    refine watched.waking atPc rfl ⟨rfl, rfl, rfl, rfl⟩ rfl (fun _ => trivial)
      (fun _ _ => id) ?_
    cases after <;> exact fun _ _ => id

/-! ## Stores to `state` -/

theorem storeAwake {pc : CpuPc} {new : TaskState} (notExit : new ≠ .EXIT) (notSleep : new ≠ .SLEEP)
    (idle : ∀ slot task, pc = .task slot task → task.initialised = none ∧
      (∀ chan, task.ChanOk slot chan) ∧ ∀ childs child, ¬ task.Scanned childs child)
    (wakes : ∀ slot, slot ≠ other → kernel.WakesFor cpu slot →
      ((kernel.setState other new).setPc cpu pc).WakesFor cpu slot) :
    ((kernel.setState other new).setPc cpu pc).Watched := by
  have zombies : ∀ child, update kernel.state other new child = .EXIT →
      kernel.state child = .EXIT := by
    intro child zombie
    by_cases same : child = other
    · rw [same, update_self] at zombie
      exact absurd zombie notExit
    · rwa [update_of_ne same] at zombie
  refine watched.step cpu pc
    { pcs := rfl, parent := watched.parent, kept := fun _ _ _ _ _ _ _ => rfl,
      chan := fun _ _ _ _ => rfl, others := ?_, initialised := ?_, chans := ?_, scanned := ?_,
      asleep := ?_ }
  · intro cpu' slot task child _ there scanned zombie
    exact watched.scanned cpu' slot task child there scanned (zombies child zombie)
  · intro slot task child isTask isInitialised
    rw [(idle slot task isTask).1] at isInitialised
    cases isInitialised
  · exact fun slot task isTask => (idle slot task isTask).2.1 _
  · exact fun slot task child isTask scanned =>
      absurd scanned ((idle slot task isTask).2.2 _ child)
  · rintro slot child ⟨sleeps, chanIs⟩ member zombie
    have stored : update kernel.state other new slot = .SLEEP := sleeps
    have different : slot ≠ other := by
      rintro rfl
      rw [update_self] at stored
      exact notSleep stored
    rw [update_of_ne different] at stored
    have waits : kernel.WaitsAsleep slot := ⟨stored, chanIs⟩
    rcases watched.asleep slot child waits member (zombies child zombie) with ⟨waker, wakesFor⟩
    by_cases isCpu : waker = cpu
    · subst isCpu
      exact ⟨waker, wakes slot different wakesFor⟩
    · exact ⟨waker, wakesFor_of_ne rfl isCpu (fun _ _ _ => rfl) wakesFor⟩

end

omit [DecidableEq Cpu] in
theorem not_wakesFor {index : Slot} (atPc : kernel.pc cpu = .task slot pc)
    (notLeaving : ¬ pc.Leaving) :
    ¬ kernel.WakesFor cpu index := by
  rintro ⟨exiting, task, there, wakes⟩
  rw [atPc] at there
  cases there
  exact notLeaving wakes.leaving

section
variable (watched : kernel.Watched)
include watched

theorem wakes_kept (atPc : kernel.pc cpu = .task self pc) (notLeaving : ¬ pc.Leaving)
    {place : CpuPc} (pcs : next.pc = update kernel.pc cpu place) (waits : kernel.WaitsAsleep slot)
    (member : child ∈ kernel.childs slot) (zombie : kernel.state child = .EXIT)
    (parent : ∀ waker exiting, waker ≠ cpu → kernel.pc waker = .task exiting .exitWake →
      kernel.parent exiting = some slot → next.parent exiting = kernel.parent exiting) :
    ∃ waker, next.WakesFor waker slot := by
  rcases watched.asleep slot child waits member zombie with ⟨waker, wakesFor⟩
  have notCpu : waker ≠ cpu := by
    rintro rfl
    exact not_wakesFor atPc notLeaving wakesFor
  exact ⟨waker, wakesFor_of_ne pcs notCpu (fun exiting => parent waker exiting notCpu) wakesFor⟩

theorem storeExit (atPc : kernel.pc cpu = .task self .exitState)
    (unseen : ∀ other parent pc, kernel.pc other = .task parent pc →
      ¬ pc.Scanned (kernel.childs parent) self) :
    ((kernel.setState self .EXIT).setPc cpu (.task self .exitWake)).Watched := by
  have isState : ∀ slot, slot ≠ self →
      update kernel.state self .EXIT slot = kernel.state slot :=
    fun slot different => update_of_ne different _ _
  refine watched.step cpu (.task self .exitWake)
    { pcs := rfl, parent := watched.parent, kept := fun _ _ _ _ _ _ _ => rfl,
      chan := fun _ _ _ _ => rfl, others := ?_, initialised := ?_, chans := ?_, scanned := ?_,
      asleep := ?_ }
  · intro other slot task child _ there scanned
    have notSelf : child ≠ self := by
      rintro rfl
      exact unseen other slot task there scanned
    show update kernel.state self .EXIT child ≠ .EXIT
    rw [isState child notSelf]
    exact watched.scanned other slot task child there scanned
  · rintro slot task child ⟨⟩ ⟨⟩
  · rintro slot task ⟨⟩
    trivial
  · rintro slot task child ⟨⟩ scanned
    exact absurd scanned id
  · rintro slot child ⟨sleeps, chanIs⟩ member zombie
    have different : slot ≠ self := by
      rintro rfl
      have exited : update kernel.state slot .EXIT slot = .SLEEP := sleeps
      rw [update_self] at exited
      cases exited
    by_cases isSelf : child = self
    · subst isSelf
      exact ⟨cpu, child, .exitWake, update_self _ _ _, watched.parent slot child member⟩
    · have waits : kernel.WaitsAsleep slot := ⟨(isState slot different).symm.trans sleeps, chanIs⟩
      exact watched.wakes_kept atPc id rfl waits member ((isState child isSelf).symm.trans zombie)
        fun _ _ _ _ _ => rfl

theorem storeSleep {after : SleepReturn} (atPc : kernel.pc cpu = .task self (.sleepState after)) :
    ((kernel.setState self .SLEEP).setPc cpu (.task self (.switch (.sleep after)))).Watched := by
  have isState : ∀ slot, slot ≠ self →
      update kernel.state self .SLEEP slot = kernel.state slot :=
    fun slot different => update_of_ne different _ _
  have zombies : ∀ child, update kernel.state self .SLEEP child = .EXIT →
      kernel.state child = .EXIT := by
    intro child zombie
    by_cases same : child = self
    · rw [same, update_self] at zombie
      cases zombie
    · rwa [isState child same] at zombie
  refine watched.step cpu (.task self (.switch (.sleep after)))
    { pcs := rfl, parent := watched.parent, kept := fun _ _ _ _ _ _ _ => rfl,
      chan := fun _ _ _ _ => rfl, others := ?_, initialised := ?_, chans := ?_, scanned := ?_,
      asleep := ?_ }
  · intro other slot task child _ there scanned zombie
    exact watched.scanned other slot task child there scanned (zombies child zombie)
  · rintro slot task child ⟨⟩ ⟨⟩
  · rintro slot task ⟨⟩
    trivial
  · rintro slot task child ⟨⟩ scanned
    exact absurd scanned id
  · rintro slot child ⟨sleeps, chanIs⟩ member zombie
    by_cases isSelf : slot = self
    · subst isSelf
      rcases watched.chans cpu slot _ atPc with ⟨wanted, isWanted, sleepsOn⟩
      have same : wanted = .childs slot := Option.some.inj (isWanted.symm.trans chanIs)
      cases after with
      | run => exact absurd same (sleepsOn slot)
      | waitScan =>
        exact absurd (zombies child zombie) (watched.scanned cpu slot _ child atPc member)
    · have waits : kernel.WaitsAsleep slot := ⟨(isState slot isSelf).symm.trans sleeps, chanIs⟩
      exact watched.wakes_kept atPc id rfl waits member (zombies child zombie) fun _ _ _ _ _ => rfl

section
variable (sound : kernel.Sound)
include sound

theorem stores {old new : TaskState} (atPc : kernel.pc cpu = .task slot pc)
    (current : kernel.curTask cpu = some self)
    (unseen : pc = .exitState → ∀ other parent pc, kernel.pc other = .task parent pc →
      ¬ pc.Scanned (kernel.childs parent) slot)
    (stores : kernel.Stores self pc other old new after) :
    ((kernel.setState other new).setPc cpu (.task slot after)).Watched := by
  rcases sound.self_eq atPc current with rfl
  cases stores with
  | exit => exact watched.storeExit atPc (unseen rfl)
  | sleep => exact watched.storeSleep atPc
  | yield | alloc | fork | wait =>
    refine watched.storeAwake nofun nofun ?_ ?_
    · rintro slot task ⟨⟩
      exact ⟨rfl, fun _ => trivial, fun _ _ => id⟩
    · exact fun slot _ wakes => absurd wakes (not_wakesFor atPc id)
  | @wakeup chan other after asleep chanIs =>
    refine watched.storeAwake nofun nofun ?_ ?_
    · rintro slot task ⟨⟩
      exact ⟨rfl, fun _ => trivial, fun _ _ => id⟩
    · rintro index different ⟨exiting, task, there, wakes⟩
      rw [atPc] at there
      cases there
      refine ⟨self, _, update_self _ _ _, ?_⟩
      cases after with
      | run => exact absurd wakes id
      | exitLock => exact ⟨wakes.1, lt_of_le_of_ne wakes.2 different.symm⟩

/-! ## Channels and lists of children -/

theorem setsChan {chan : Option Channel} (atPc : kernel.pc cpu = .task self pc)
    (awake : pc.ownState ≠ .SLEEP) (initialised : after.initialised = none)
    (chans : after.ChanOk self chan) (scanned : ∀ child, after.Scanned (kernel.childs self) child →
      pc.Scanned (kernel.childs self) child) (notLeaving : ¬ pc.Leaving) :
    ((kernel.setChan self chan).setPc cpu (.task self after)).Watched := by
  refine watched.step cpu (.task self after)
    { pcs := rfl, parent := watched.parent, kept := fun _ _ _ _ _ _ _ => rfl, chan := ?_,
      others := fun other slot task child _ => watched.scanned other slot task child,
      initialised := ?_, chans := ?_, scanned := ?_, asleep := ?_ }
  · intro other slot different executes
    have notSelf : slot ≠ self := by
      rintro rfl
      exact sound.alone atPc different executes
    exact update_of_ne notSelf _ _
  · rintro slot task child ⟨⟩ isInitialised
    rw [initialised] at isInitialised
    cases isInitialised
  · rintro slot task ⟨⟩
    show after.ChanOk self (update kernel.chan self chan self)
    rwa [update_self]
  · rintro slot task child ⟨⟩ isScanned
    exact watched.scanned cpu self pc child atPc (scanned child isScanned)
  · rintro slot child ⟨sleeps, chanIs⟩ member zombie
    have notSelf : slot ≠ self := by
      rintro rfl
      exact awake ((sound.ownState atPc).symm.trans sleeps)
    have stored : update kernel.chan self chan slot = some (.childs slot) := chanIs
    rw [update_of_ne notSelf] at stored
    exact watched.wakes_kept atPc notLeaving rfl ⟨sleeps, stored⟩ member zombie
      fun _ _ _ _ _ => rfl

theorem listStep (atPc : kernel.pc cpu = .task self pc)
    (pcs : next.pc = update kernel.pc cpu (.task self after))
    (same : next.state = kernel.state ∧ next.chan = kernel.chan)
    (childs : ∀ slot, slot ≠ self → (∀ child ∈ next.childs slot, child ∈ kernel.childs slot) ∧
      ∀ other, other ≠ cpu → kernel.Executes other slot → next.childs slot = kernel.childs slot)
    (parent : ∀ slot, ∀ child ∈ next.childs slot, next.parent child = some slot)
    (kept : ∀ child, next.parent child = kernel.parent child ∨ pc.forks = some child)
    (initialised : ∀ child, after.initialised = some child → next.parent child = some self)
    (chans : ∀ chan, after.ChanOk self chan)
    (scanned : ∀ childs child, ¬ after.Scanned childs child) (runs : pc.ownState = .RUN)
    (notLeaving : ¬ pc.Leaving) : next.Watched := by
  have isForked : ∀ other child state, other ≠ cpu → (kernel.pc other).Expects child state →
      next.parent child = kernel.parent child := by
    intro other child state different expects
    rcases kept child with unchanged | forks
    · exact unchanged
    · exact absurd expects (sound.not_expects_of_forks atPc forks different state)
  refine watched.step cpu (.task self after)
    { pcs := pcs, parent := parent, kept := ?_, chan := ?_, others := ?_, initialised := ?_,
      chans := ?_, scanned := ?_, asleep := ?_ }
  · intro other slot task child different there isInitialised
    refine isForked other child .INIT different ?_
    rw [there]
    refine .inr (.inl ⟨?_, rfl⟩)
    cases task with
    | stackPage | laterPages | forkPush => exact isInitialised
    | _ => cases isInitialised
  · intro other slot _ _
    rw [same.2]
  · intro other slot task child different there isScanned
    have executes : kernel.Executes other slot := ⟨task, there⟩
    have notSelf : slot ≠ self := by
      rintro rfl
      exact sound.alone atPc different executes
    rw [(childs slot notSelf).2 other different executes] at isScanned
    rw [same.1]
    exact watched.scanned other slot task child there isScanned
  · rintro slot task child ⟨⟩
    exact initialised child
  · rintro slot task ⟨⟩
    exact chans _
  · rintro slot task child ⟨⟩ isScanned
    exact absurd isScanned (scanned _ child)
  · rintro slot child ⟨sleeps, chanIs⟩ member zombie
    rw [same.1] at sleeps zombie
    rw [same.2] at chanIs
    have notSelf : slot ≠ self := by
      rintro rfl
      have running := (sound.ownState atPc).trans runs
      rw [sleeps] at running
      cases running
    refine watched.wakes_kept atPc notLeaving pcs ⟨sleeps, chanIs⟩
      ((childs slot notSelf).1 child member) zombie ?_
    intro waker exiting notCpu there _
    refine isForked waker exiting .EXIT notCpu ?_
    rw [there]
    exact .inl ⟨rfl, rfl⟩

theorem taskInit (atPc : kernel.pc cpu = .task self (.taskInit child)) :
    ((((kernel.setParent child self).setChilds child []).setPageHead child []).setPc cpu
      (.task self (.stackPage child))).Watched := by
  have unlisted : kernel.Unlisted child := sound.hidden cpu child (by rw [atPc]; rfl)
  have isChilds : ∀ slot, slot ≠ child →
      update kernel.childs child [] slot = kernel.childs slot :=
    fun slot different => update_of_ne different _ _
  have subset : ∀ slot, ∀ grandchild ∈ update kernel.childs child [] slot,
      grandchild ∈ kernel.childs slot := by
    intro slot grandchild member
    by_cases same : slot = child
    · rw [same, update_self] at member
      cases member
    · rwa [isChilds slot same] at member
  refine watched.listStep sound atPc rfl ⟨rfl, rfl⟩ ?_ ?_ ?_ ?_ (fun _ => trivial)
    (fun _ _ => id) rfl id
  · refine fun slot _ => ⟨subset slot, ?_⟩
    rintro other different ⟨task, there⟩
    refine isChilds slot ?_
    rintro rfl
    refine sound.not_expects_of_forks atPc rfl different task.ownState ?_
    rw [there]
    exact .inl ⟨rfl, rfl⟩
  · intro slot grandchild member
    have inList := subset slot grandchild member
    have notChild : grandchild ≠ child := by
      rintro rfl
      exact unlisted slot inList
    exact (update_of_ne notChild _ _).trans (watched.parent slot grandchild inList)
  · intro grandchild
    by_cases same : grandchild = child
    · exact .inr (by rw [same]; rfl)
    · exact .inl (update_of_ne same _ _)
  · rintro grandchild ⟨⟩
    exact update_self _ _ _

theorem forkPush (atPc : kernel.pc cpu = .task self (.forkPush child)) :
    ((kernel.setChilds self (kernel.childs self ++ [child])).setPc cpu
      (.task self (.forkContext child))).Watched := by
  refine watched.listStep sound atPc rfl ⟨rfl, rfl⟩ (kernel.setChilds_others _) ?_
    (fun _ => .inl rfl) nofun (fun _ => trivial) (fun _ _ => id) rfl id
  intro slot grandchild member
  rcases OwnedLists.mem_push.mp member with old | ⟨rfl, rfl⟩
  · exact watched.parent slot grandchild old
  · exact watched.initialised cpu slot _ grandchild atPc rfl

theorem waitRemove (atPc : kernel.pc cpu = .task self (.waitRemove child)) :
    ((kernel.setChilds self ((kernel.childs self).erase child)).setPc cpu
      (.task self (.waitCopy child))).Watched := by
  refine watched.listStep sound atPc rfl ⟨rfl, rfl⟩ (kernel.setChilds_others _) ?_
    (fun _ => .inl rfl) nofun (fun _ => trivial) (fun _ _ => id) rfl id
  intro slot grandchild member
  exact watched.parent slot grandchild
    ((OwnedLists.sublist_update List.erase_sublist slot).subset member)

end
end

omit [DecidableEq Cpu] in
theorem handOver_childs (kernel : Kernel Cpu Page) (notSelf : slot ≠ self) :
    (kernel.handOver self child).childs slot =
      if slot = 0 then kernel.childs 0 ++ [child] else kernel.childs slot := by
  by_cases first : slot = 0
  · subst first
    simp [handOver, notSelf]
  · simp [handOver, notSelf, first]

omit [DecidableEq Cpu] in
theorem scanned_of_append (sound : kernel.Sound) {added : Slot}
    (atPc : kernel.pc cpu = .task slot pc)
    (scanned : pc.Scanned (kernel.childs slot ++ [added]) child) (different : child ≠ added) :
    pc.Scanned (kernel.childs slot) child := by
  have inList : child ∈ kernel.childs slot ++ [added] → child ∈ kernel.childs slot := by
    intro member
    simpa [different] using member
  cases pc with
  | waitVisit other => exact scanned_append (sound.lists cpu slot _ other atPc rfl) scanned
  | sleepLock chan after | sleepChan chan after =>
    cases after with
    | run => exact scanned
    | waitScan => exact inList scanned
  | sleepState after =>
    cases after with
    | run => exact scanned
    | waitScan => exact inList scanned
  | _ => exact scanned

theorem exitMove (watched : kernel.Watched) (sound : kernel.Sound) {saved : Option Slot}
    (atPc : kernel.pc cpu = .task self (.exitMove child saved))
    (unseen : kernel.state child = .EXIT → ¬ kernel.WaitsAsleep 0 ∧
      ∀ other pc, kernel.pc other = .task 0 pc → ¬ pc.Scanned (kernel.childs 0 ++ [child]) child) :
    ((kernel.handOver self child).setPc cpu (.task self (.exitChildPut child saved))).Watched := by
  have listed := sound.lists cpu self _ child atPc (.inl rfl)
  have isParent : ∀ slot, slot ≠ child →
      (kernel.handOver self child).parent slot = kernel.parent slot :=
    fun slot different => update_of_ne different _ _
  refine watched.step cpu (.task self (.exitChildPut child saved))
    { pcs := rfl, parent := ?_, kept := ?_, chan := fun _ _ _ _ => rfl, others := ?_,
      initialised := ?_, chans := ?_, scanned := ?_, asleep := ?_ }
  · intro slot grandchild member
    rcases (sound.mem_handOver_childs listed).mp member with ⟨place, notChild⟩ | ⟨rfl, rfl⟩
    · exact (isParent grandchild notChild).trans (watched.parent slot grandchild place)
    · exact update_self _ _ _
  · intro other slot task grandchild _ there isInitialised
    refine isParent grandchild ?_
    rintro rfl
    refine sound.hidden other grandchild ?_ self listed
    rw [there]
    cases task with
    | stackPage | laterPages | forkPush => exact isInitialised
    | _ => cases isInitialised
  · intro other slot task grandchild different there isScanned zombie
    have notSelf : slot ≠ self := by
      rintro rfl
      exact sound.alone atPc different ⟨task, there⟩
    have isScanned : task.Scanned ((kernel.handOver self child).childs slot) grandchild :=
      isScanned
    rw [handOver_childs kernel notSelf] at isScanned
    by_cases first : slot = 0
    · subst first
      rw [if_pos rfl] at isScanned
      by_cases isChild : grandchild = child
      · subst isChild
        exact (unseen zombie).2 other task there isScanned
      · exact watched.scanned other 0 task grandchild there
          (scanned_of_append sound there isScanned isChild) zombie
    · rw [if_neg first] at isScanned
      exact watched.scanned other slot task grandchild there isScanned zombie
  · rintro slot task grandchild ⟨⟩ ⟨⟩
  · rintro slot task ⟨⟩
    trivial
  · rintro slot task grandchild ⟨⟩ isScanned
    exact absurd isScanned id
  · intro slot grandchild isWaiting member zombie
    have waits : kernel.WaitsAsleep slot := isWaiting
    rcases (sound.mem_handOver_childs listed).mp member with ⟨place, _⟩ | ⟨rfl, rfl⟩
    · have pcs : ((kernel.handOver self child).setPc cpu (.task self (.exitChildPut child
          saved))).pc = update kernel.pc cpu (.task self (.exitChildPut child saved)) :=
        rfl
      refine watched.wakes_kept atPc id pcs waits place zombie ?_
      intro _ exiting _ _ parentIs
      refine isParent exiting ?_
      rintro rfl
      -- the exiting task itself runs, it does not wait
      have same : self = slot :=
        Option.some.inj ((watched.parent self exiting listed).symm.trans parentIs)
      have asleep : kernel.state slot = .SLEEP := waits.1
      have running := sound.ownState atPc
      rw [same, asleep] at running
      cases running
    · exact absurd waits (unseen zombie).1

/-! ## Whole runs -/

theorem sched (watched : kernel.Watched) {pc : CpuPc} (pcs : next.pc = update kernel.pc cpu pc)
    (same : kernel.SameFamily next)
    (idle : ∀ slot task, pc = .task slot task → task.initialised = none ∧
      (∀ chan, task.ChanOk slot chan) ∧ ∀ childs child, ¬ task.Scanned childs child)
    (notWaking : ∀ slot, ¬ kernel.WakesFor cpu slot) : next.Watched := by
  refine watched.quiet pcs same ?_ ?_ ?_ fun slot _ wakes => absurd wakes (notWaking slot)
  · intro slot task child isTask isInitialised
    rw [(idle slot task isTask).1] at isInitialised
    cases isInitialised
  · exact fun slot task isTask => (idle slot task isTask).2.1 _
  · exact fun slot task child isTask scanned =>
      absurd scanned ((idle slot task isTask).2.2 _ child)

variable [DecidableEq Page]

omit [DecidableEq Cpu] in
theorem allocPageForTask_family {page : Page}
    (allocates : kernel.allocPageForTask slot = some (page, next)) :
    kernel.SameFamily next := by
  unfold allocPageForTask allocPage at allocates
  split at allocates
  case h_1 => cases allocates
  case h_2 =>
    cases allocates
    exact ⟨rfl, rfl, rfl, rfl⟩

theorem pages (watched : kernel.Watched) (atPc : kernel.pc cpu = .task slot pc)
    (pages : Pages self kernel pc next after) :
    (next.setPc cpu (.task slot after)).Watched := by
  cases pages with
  | alloc | free | clean =>
    exact watched.idle atPc rfl ⟨rfl, rfl, rfl, rfl⟩ (.inl rfl) (fun _ => trivial)
      (fun _ _ => id) id
  | allocForTask place allocates =>
    have pcs := (allocPageForTask_same allocates).2.2.2.1
    have same := allocPageForTask_family allocates
    rcases place with ⟨rfl, _⟩ | rfl | rfl <;>
      exact watched.idle atPc (by rw [setPc, pcs]) same (.inr rfl) (fun _ => trivial)
        (fun _ _ => id) id
  | @stack allocated page child allocates =>
    have pcs : (allocated.setStack child page).pc = kernel.pc :=
      (allocPageForTask_same allocates).2.2.2.1
    rcases allocPageForTask_family allocates with ⟨state, chan, parent, childs⟩
    have initialised : (TaskPc.laterPages child).initialised =
        (TaskPc.stackPage child).initialised := rfl
    refine watched.idle atPc ?_ ⟨state, chan, parent, childs⟩ (.inr initialised)
      (fun _ => trivial) (fun _ _ => id) id
    rw [← pcs]
    rfl

theorem transition (watched : kernel.Watched) (sound : kernel.Sound) {label : Label Cpu Page}
    (allowed : kernel.ExitsSeen label)
    (foreign : ∀ slot chan, kernel.pc label.cpu = .task slot .run →
      next.pc label.cpu = .task slot (.sleepLock chan .run) → ∀ task, chan ≠ .childs task)
    (moves : kernel.Transition label.cpu next) : next.Watched := by
  have scheduler : (kernel.pc label.cpu).taskPc = none →
      ∀ slot, ¬ kernel.WakesFor label.cpu slot := by
    rintro notTask slot ⟨exiting, task, there, _⟩
    rw [there] at notTask
    cases notTask
  cases moves with
  | @move slot self pc after atPc current moves =>
    refine watched.move sound atPc current moves ?_
    rintro chan rfl rfl
    exact foreign slot chan atPc (update_self _ _ _)
  | locks atPc current gets free => exact watched.gets sound atPc current gets
  | puts atPc current puts held => exact watched.puts atPc puts
  | @stores slot self pc other old new after atPc current stores =>
    refine watched.stores sound atPc current ?_ stores
    rintro rfl
    exact allowed.exits slot atPc
  | pages atPc current pages => exact watched.pages atPc pages
  | @sleepChan slot self chan after atPc current =>
    rcases sound.self_eq atPc current with rfl
    refine watched.setsChan sound atPc nofun rfl ⟨chan, rfl, ?_⟩ ?_ id
    · exact watched.chans label.cpu self (.sleepChan chan after) atPc
    · cases after <;> exact fun _ => id
  | chanNull atPc current =>
    rcases sound.self_eq atPc current with rfl
    exact watched.setsChan sound atPc nofun rfl trivial (fun _ => id) id
  | switch atPc current =>
    exact watched.sched rfl ⟨rfl, rfl, rfl, rfl⟩ nofun fun slot => not_wakesFor atPc id
  | allocTq atPc | allocPutTq atPc | forkContext atPc =>
    exact watched.idle atPc rfl ⟨rfl, rfl, rfl, rfl⟩ (.inl rfl) (fun _ => trivial)
      (fun _ _ => id) id
  | taskInit atPc current =>
    rcases sound.self_eq atPc current with rfl
    exact watched.taskInit sound atPc
  | forkPush atPc current =>
    rcases sound.self_eq atPc current with rfl
    exact watched.forkPush sound atPc
  | @exitMove slot self child saved atPc current =>
    rcases sound.self_eq atPc current with rfl
    exact watched.exitMove sound atPc (allowed.hands self child saved atPc)
  | waitRemove atPc current =>
    rcases sound.self_eq atPc current with rfl
    exact watched.waitRemove sound atPc
  | schedState atPc =>
    exact watched.storeAwake nofun nofun nofun
      fun slot _ wakes => absurd wakes (scheduler (by rw [atPc]; rfl) slot)
  | @schedSwitch slot atPc =>
    refine watched.sched rfl ⟨rfl, rfl, rfl, rfl⟩ ?_ (scheduler (by rw [atPc]; rfl))
    rintro index task ⟨⟩
    cases kernel.ctx slot <;> exact ⟨rfl, fun _ => trivial, fun _ _ => id⟩
  | schedLock atPc | schedReady atPc | schedPass atPc | schedCur atPc | schedClear atPc
  | schedPut atPc =>
    exact watched.sched rfl ⟨rfl, rfl, rfl, rfl⟩ nofun (scheduler (by rw [atPc]; rfl))

omit [DecidableEq Cpu] [DecidableEq Page] in
theorem initial (boot : kernel.Boot) : kernel.Watched := by
  refine { parent := ?_, initialised := ?_, chans := ?_, scanned := ?_, asleep := ?_ }
  all_goals
    simp [boot.pc, boot.childs]

end Watched

/-- Unmodelled code does not sleep on a list of children: only `sys_wait` does. -/
def Foreign : Choice Page → Bool
  | .sleep (.childs _) => false
  | _ => true

def waitMachine (Cpu Page : Type) [DecidableEq Cpu] [DecidableEq Page] :
    Machine (Kernel Cpu Page) (Label Cpu Page) where
  Initial := Boot
  step kernel label :=
    if Foreign label.choice then kernel.cpuStep label.cpu label.choice else none

/-- No exit or kill is between its store of `EXIT` and the end of its wakeup. -/
def Settled (kernel : Kernel Cpu Page) : Prop :=
  ∀ cpu slot pc, kernel.pc cpu = .task slot pc → ¬ pc.Leaving

/-- A task that sleeps in `sys_wait` has no exited child. -/
def NoZombieMissed (kernel : Kernel Cpu Page) : Prop :=
  ∀ slot, kernel.WaitsAsleep slot → ∀ child ∈ kernel.childs slot, kernel.state child ≠ .EXIT

variable [DecidableEq Page]

theorem foreign_of_step {cpu : Cpu} {choice : Choice Page} {slot : Slot} {chan : Channel}
    (foreign : Foreign choice = true) (taken : kernel.cpuStep cpu choice = some next)
    (atPc : kernel.pc cpu = .task slot .run)
    (after : next.pc cpu = .task slot (.sleepLock chan .run)) (task : Slot) :
    chan ≠ .childs task := by
  rintro rfl
  simp only [cpuStep, atPc] at taken
  split at taken
  case h_2 => cases taken
  case h_1 self current =>
    cases choice with
    | sleep wanted =>
      cases taken
      have same : CpuPc.task slot (.sleepLock wanted .run) =
          .task slot (.sleepLock (.childs task) .run) :=
        (update_self cpu _ kernel.pc).symm.trans after
      cases same
      cases foreign
    | go => cases taken
    | wait =>
      simp only [taskStep] at taken
      split at taken <;> cases taken <;> simp at after
    | allocPage | allocPageForTask =>
      rcases Option.map_eq_some_iff.mp taken with ⟨allocated, _, rfl⟩
      simp at after
    | freePage page =>
      simp only [taskStep] at taken
      split at taken
      case isTrue =>
        rcases Option.map_eq_some_iff.mp taken with ⟨freed, _, rfl⟩
        simp at after
      case isFalse => cases taken
    | _ =>
      cases taken
      simp at after

theorem noZombieMissed_of_reaches
    (reached : (waitMachine Cpu Page).Reaches ExitsSeen kernel) (settled : kernel.Settled) :
    kernel.NoZombieMissed := by
  have holds : (kernel.Sound ∧ kernel.ReapedLeft) ∧ kernel.Watched := by
    apply reached.invariant fun kernel =>
      (kernel.Sound ∧ kernel.ReapedLeft) ∧ kernel.Watched
    · intro start boot
      exact ⟨sound_of_reaches (.initial boot), .initial boot⟩
    · rintro kernel label next ⟨⟨sound, left⟩, watched⟩ allowed stepped
      simp only [waitMachine, Option.ite_none_right_eq_some] at stepped
      rcases stepped with ⟨foreign, taken⟩
      have moves := transition_of_step taken
      refine ⟨⟨sound.transition (left.freesLeft label.cpu) moves,
        left.transition sound allowed.finds moves⟩, watched.transition sound allowed ?_ moves⟩
      exact fun slot chan atPc after => foreign_of_step foreign taken atPc after
  intro slot waits child member zombie
  rcases holds.2.asleep slot child waits member zombie with ⟨waker, exiting, pc, there, wakes⟩
  exact settled waker exiting pc there wakes.leaving

def waitRun : List (Label (Fin 2) Nat) :=
  forkRun ++ [⟨0, .wait⟩] ++ go 0 8

theorem noZombieMissed_waitRun :
    ∃ kernel, (waitMachine (Fin 2) Nat).run exampleStart waitRun = some kernel ∧
      kernel.WaitsAsleep 0 ∧ kernel.childs 0 = [1] ∧ kernel.NoZombieMissed := by
  have started : (waitMachine (Fin 2) Nat).Reaches ExitsSeen exampleStart :=
    .initial initial_exampleStart
  rcases (⟨_, rfl, ⟨rfl, rfl⟩, rfl, rfl, rfl⟩ : ∃ kernel,
      (waitMachine (Fin 2) Nat).run exampleStart waitRun = some kernel ∧
        kernel.WaitsAsleep 0 ∧ kernel.childs 0 = [1] ∧ kernel.pc 0 = .schedLock 1 ∧
        kernel.pc 1 = .task 1 .run) with ⟨kernel, ran, waits, isChilds, left, right⟩
  refine ⟨kernel, ran, waits, isChilds, noZombieMissed_of_reaches (started.run ?_ ran) ?_⟩
  · repeat first | exact trivial | refine ⟨⟨nofun, nofun, nofun⟩, ?_⟩
  · intro cpu slot pc there
    have isCpu : cpu = 0 ∨ cpu = 1 := by omega
    rcases isCpu with rfl | rfl
    · rw [left] at there
      cases there
    · rw [right] at there
      cases there
      exact id

/-- The first task tests its child, the child exits and wakes, and only then the
first task falls asleep. -/
def missRun : List (Label (Fin 2) Nat) :=
  forkRun ++ [⟨0, .wait⟩] ++ go 0 2 ++ [⟨1, .exit⟩] ++ go 1 104 ++ go 0 6

set_option maxRecDepth 20000 in
theorem missRun_misses_zombie :
    ∃ kernel, (waitMachine (Fin 2) Nat).Reachable kernel ∧ kernel.pc 0 = .schedLock 1 ∧
      kernel.pc 1 = .schedLock 2 ∧ ¬ kernel.NoZombieMissed := by
  have started : (waitMachine (Fin 2) Nat).Reachable exampleStart :=
    .initial initial_exampleStart
  rcases (⟨_, rfl, rfl, rfl, ⟨rfl, rfl⟩, rfl, rfl⟩ : ∃ kernel,
      (waitMachine (Fin 2) Nat).run exampleStart missRun = some kernel ∧
        kernel.pc 0 = .schedLock 1 ∧ kernel.pc 1 = .schedLock 2 ∧ kernel.WaitsAsleep 0 ∧
        kernel.childs 0 = [1] ∧ kernel.state 1 = .EXIT) with
    ⟨kernel, ran, left, right, waits, isChilds, zombie⟩
  refine ⟨kernel, started.run ran, left, right, ?_⟩
  intro noneMissed
  exact noneMissed 0 waits 1 (by simp [isChilds]) zombie

end Kernel
end Tnix.Task
