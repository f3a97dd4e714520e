import Tnix.Foundation.OwnedLists
import Tnix.Task.KernelTransition

/-! # Who may touch a task slot

For each program counter, the locks that the CPU holds and what it knows of slots and lists. -/

namespace Tnix.Task

open Function

/-! ## What a program counter stands for -/

namespace TaskPc

def ownState : TaskPc → TaskState
  | .switch (.sleep _) => .SLEEP
  | .switch .putLock => .READY
  | .switch .exited | .exitWake | .exitLock | .wakeupLock _ _ .exitLock | .wakeupTest _ _ .exitLock
  | .wakeupPut _ _ .exitLock => .EXIT
  | _ => .RUN

def OwnsLock : TaskPc → Prop
  | .yieldState | .sleepChan .. | .sleepState _ | .chanNull _ | .putLock _ | .switch _ => True
  | _ => False

def visits : TaskPc → Option Slot
  | .wakeupTest _ slot _ | .wakeupPut _ slot _ | .allocTest slot | .allocSkip slot
  | .allocPut slot | .exitMove slot _ | .exitChildPut slot _ => some slot
  | _ => none

def forks : TaskPc → Option Slot
  | .allocPut child | .allocPutTq child | .taskInit child | .stackPage child
  | .laterPages child | .forkPush child | .forkContext child | .forkReady child => some child
  | _ => none

def reaps : TaskPc → Option Slot
  | .waitRemove child | .waitCopy child | .waitFree child => some child
  | _ => none

/-- The slot in work that is on no list of children. -/
def hidden : TaskPc → Option Slot
  | .allocPut child | .allocPutTq child | .taskInit child | .stackPage child
  | .laterPages child | .forkPush child | .waitCopy child | .waitFree child => some child
  | _ => none

/-- The task is about to use the slot as one of its children. -/
def Lists (child : Slot) : TaskPc → Prop
  | .exitVisit next => next = some child
  | .exitChildLock slot saved | .exitMove slot saved => child = slot ∨ saved = some child
  | .exitChildPut _ saved => saved = some child
  | .waitVisit slot | .waitRemove slot => child = slot
  | _ => False

/-- The next child was read before the list is changed. -/
def SavedOk : TaskPc → Prop
  | .exitChildLock child saved | .exitMove child saved => saved ≠ some child
  | _ => True

end TaskPc

namespace CpuPc

def Holds (slot : Slot) : CpuPc → Prop
  | .schedTest other | .schedState other | .schedCur other | .schedSwitch other
  | .schedClear other | .schedPut other => slot = other
  | .task self pc => (slot = self ∧ pc.OwnsLock) ∨ pc.visits = some slot
  | .schedLock _ => False

/-- The CPU relies on the state of the slot. -/
def Expects (slot : Slot) (state : TaskState) : CpuPc → Prop
  | .schedState other => slot = other ∧ state = .READY
  | .schedCur other | .schedSwitch other => slot = other ∧ state = .RUN
  | .task self pc => (slot = self ∧ state = pc.ownState) ∨
      (pc.forks = some slot ∧ state = .INIT) ∨ (pc.reaps = some slot ∧ state = .EXIT)
  | _ => False

def taskPc : CpuPc → Option TaskPc
  | .task _ pc => some pc
  | _ => none

def forks (pc : CpuPc) : Option Slot := pc.taskPc.bind TaskPc.forks

def reaps (pc : CpuPc) : Option Slot := pc.taskPc.bind TaskPc.reaps

def hidden (pc : CpuPc) : Option Slot := pc.taskPc.bind TaskPc.hidden

end CpuPc

namespace Kernel

variable {Cpu Page : Type}

def Executes (kernel : Kernel Cpu Page) (cpu : Cpu) (slot : Slot) : Prop :=
  ∃ pc, kernel.pc cpu = .task slot pc

/-- The CPU is about to run the slot, runs it, or has not cleared `cur_task`. -/
def Occupies (kernel : Kernel Cpu Page) (cpu : Cpu) (slot : Slot) : Prop :=
  match kernel.pc cpu with
  | .schedCur other | .schedSwitch other | .task other _ => other = slot
  | .schedClear other => other = slot ∧ kernel.curTask cpu = some slot
  | _ => False

/-- `cur_task` is set while the task runs. -/
def CurrentOk (current : Option Slot) : CpuPc → Prop
  | .schedSwitch slot | .task slot _ => current = some slot
  | .schedClear slot => current = none ∨ current = some slot
  | _ => current = none

def Unlisted (kernel : Kernel Cpu Page) (slot : Slot) : Prop :=
  ∀ parent, slot ∉ kernel.childs parent

structure Sound (kernel : Kernel Cpu Page) : Prop where
  current : ∀ cpu, CurrentOk (kernel.curTask cpu) (kernel.pc cpu)
  locks : ∀ cpu slot, (kernel.pc cpu).Holds slot → kernel.lock slot = some cpu
  states : ∀ cpu slot state, (kernel.pc cpu).Expects slot state → kernel.state slot = state
  occupied : ∀ left right slot, kernel.Occupies left slot → kernel.Occupies right slot →
    left = right
  forks : ∀ left right slot, (kernel.pc left).forks = some slot →
    (kernel.pc right).forks = some slot → left = right
  reaps : ∀ left right slot, (kernel.pc left).reaps = some slot →
    (kernel.pc right).reaps = some slot → left = right
  lists : ∀ cpu slot pc child, kernel.pc cpu = .task slot pc → pc.Lists child →
    child ∈ kernel.childs slot
  saved : ∀ cpu slot pc, kernel.pc cpu = .task slot pc → pc.SavedOk
  hidden : ∀ cpu slot, (kernel.pc cpu).hidden = some slot → kernel.Unlisted slot
  free : ∀ slot, kernel.state slot = .FREE → kernel.Unlisted slot
  nodup : ∀ slot, (kernel.childs slot).Nodup
  disjoint : ∀ left right child, child ∈ kernel.childs left → child ∈ kernel.childs right →
    left = right

/-- When the CPU frees a child in `sys_wait`, no CPU still executes it. -/
def FreesLeft (kernel : Kernel Cpu Page) (cpu : Cpu) : Prop :=
  ∀ slot child, kernel.pc cpu = .task slot (.waitFree child) →
    ∀ other, ¬ kernel.Executes other child

/-! ## Steps of one CPU -/

variable [DecidableEq Cpu] {kernel next : Kernel Cpu Page}

/-- What has to be checked of a step of one CPU, besides the lists of children. -/
structure CpuStep (kernel next : Kernel Cpu Page) (cpu : Cpu) (pc : CpuPc) : Prop where
  pcs : next.pc = update kernel.pc cpu pc
  curTask : ∀ other, other ≠ cpu → next.curTask other = kernel.curTask other
  lock : ∀ other slot, other ≠ cpu → kernel.lock slot = some other →
    next.lock slot = some other
  state : ∀ other slot state, other ≠ cpu → (kernel.pc other).Expects slot state →
    next.state slot = kernel.state slot
  current : CurrentOk (next.curTask cpu) pc
  locks : ∀ slot, pc.Holds slot → next.lock slot = some cpu
  states : ∀ slot state, pc.Expects slot state → next.state slot = state
  occupied : ∀ other slot, other ≠ cpu → kernel.Occupies other slot →
    ¬ next.Occupies cpu slot

structure LocalStep (kernel next : Kernel Cpu Page) (cpu : Cpu) (pc : CpuPc) : Prop
    extends CpuStep kernel next cpu pc where
  childs : ∀ other slot, other ≠ cpu → kernel.Executes other slot →
    ∀ child ∈ kernel.childs slot, child ∈ next.childs slot
  unlisted : ∀ other slot, other ≠ cpu → (kernel.pc other).hidden = some slot →
    next.Unlisted slot
  forks : ∀ other slot, other ≠ cpu → (kernel.pc other).forks = some slot →
    pc.forks ≠ some slot
  reaps : ∀ other slot, other ≠ cpu → (kernel.pc other).reaps = some slot →
    pc.reaps ≠ some slot
  lists : ∀ slot task child, pc = .task slot task → task.Lists child →
    child ∈ next.childs slot
  saved : ∀ slot task, pc = .task slot task → task.SavedOk
  hidden : ∀ slot, pc.hidden = some slot → next.Unlisted slot
  free : ∀ slot, next.state slot = .FREE → next.Unlisted slot
  nodup : ∀ slot, (next.childs slot).Nodup
  disjoint : ∀ left right child, child ∈ next.childs left → child ∈ next.childs right →
    left = right

omit [DecidableEq Cpu] in
theorem occupies_of_same {cpu : Cpu} {slot : Slot} (pc : next.pc cpu = kernel.pc cpu)
    (curTask : next.curTask cpu = kernel.curTask cpu) :
    next.Occupies cpu slot ↔ kernel.Occupies cpu slot := by
  simp only [Occupies, pc, curTask]

theorem unique_of_local {Has : Cpu → Slot → Prop} (Had : Cpu → Slot → Prop) (cpu : Cpu)
    (same : ∀ other slot, other ≠ cpu → Has other slot → Had other slot)
    (unique : ∀ left right slot, Had left slot → Had right slot → left = right)
    (fresh : ∀ other slot, other ≠ cpu → Had other slot → ¬ Has cpu slot) :
    ∀ left right slot, Has left slot → Has right slot → left = right := by
  intro left right slot leftHas rightHas
  by_cases leftSame : left = cpu <;> by_cases rightSame : right = cpu
  · exact leftSame.trans rightSame.symm
  · subst leftSame
    exact absurd leftHas (fresh right slot rightSame (same right slot rightSame rightHas))
  · subst rightSame
    exact absurd rightHas (fresh left slot leftSame (same left slot leftSame leftHas))
  · exact unique left right slot (same left slot leftSame leftHas)
      (same right slot rightSame rightHas)

namespace Sound

theorem localStep (sound : kernel.Sound) (cpu : Cpu) (pc : CpuPc)
    (change : LocalStep kernel next cpu pc) : next.Sound := by
  have moved : next.pc cpu = pc := by
    rw [change.pcs, update_self]
  have stays : ∀ other, other ≠ cpu → next.pc other = kernel.pc other := by
    intro other different
    rw [change.pcs, update_of_ne different]
  refine
    { current := ?_, locks := ?_, states := ?_, occupied := ?_, forks := ?_, reaps := ?_,
      lists := ?_, saved := ?_, hidden := ?_, free := change.free, nodup := change.nodup,
      disjoint := change.disjoint }
  · intro other
    by_cases same : other = cpu
    · rw [same, moved]
      exact change.current
    · rw [stays other same, change.curTask other same]
      exact sound.current other
  · intro other slot
    by_cases same : other = cpu
    · rw [same, moved]
      exact change.locks slot
    · rw [stays other same]
      exact fun holds => change.lock other slot same (sound.locks other slot holds)
  · intro other slot state
    by_cases same : other = cpu
    · rw [same, moved]
      exact change.states slot state
    · rw [stays other same]
      intro expects
      rw [change.state other slot state same expects]
      exact sound.states other slot state expects
  · apply unique_of_local kernel.Occupies cpu
    · intro other slot different
      exact (occupies_of_same (stays other different) (change.curTask other different)).mp
    · exact sound.occupied
    · exact change.occupied
  · apply unique_of_local (fun cpu slot => (kernel.pc cpu).forks = some slot) cpu
    · intro other slot different
      rw [stays other different]
      exact id
    · exact sound.forks
    · rw [moved]
      exact change.forks
  · apply unique_of_local (fun cpu slot => (kernel.pc cpu).reaps = some slot) cpu
    · intro other slot different
      rw [stays other different]
      exact id
    · exact sound.reaps
    · rw [moved]
      exact change.reaps
  · intro other slot task child isPc
    by_cases same : other = cpu
    · rw [same, moved] at isPc
      exact change.lists slot task child isPc
    · rw [stays other same] at isPc
      exact fun lists => change.childs other slot same ⟨task, isPc⟩ child
        (sound.lists other slot task child isPc lists)
  · intro other slot task isPc
    by_cases same : other = cpu
    · rw [same, moved] at isPc
      exact change.saved slot task isPc
    · rw [stays other same] at isPc
      exact sound.saved other slot task isPc
  · intro other slot
    by_cases same : other = cpu
    · rw [same, moved]
      exact change.hidden slot
    · rw [stays other same]
      exact change.unlisted other slot same

variable {cpu : Cpu} {slot : Slot} {pc : TaskPc}

omit [DecidableEq Cpu] in
theorem self_eq (sound : kernel.Sound) {self : Slot} (atPc : kernel.pc cpu = .task slot pc)
    (current : kernel.curTask cpu = some self) :
    self = slot := by
  have known := sound.current cpu
  rw [atPc, current] at known
  exact Option.some.inj known

omit [DecidableEq Cpu] in
theorem ownState (sound : kernel.Sound) (atPc : kernel.pc cpu = .task slot pc) :
    kernel.state slot = pc.ownState :=
  sound.states cpu slot _ (by rw [atPc]; exact .inl ⟨rfl, rfl⟩)

/-- A step of task code that changes no state. -/
structure TaskCodeStep (kernel next : Kernel Cpu Page) (cpu : Cpu) (slot : Slot)
    (pc after : TaskPc) : Prop where
  atPc : kernel.pc cpu = .task slot pc
  pcs : next.pc = update kernel.pc cpu (.task slot after)
  lock : ∀ other index, other ≠ cpu → kernel.lock index = some other →
    next.lock index = some other
  locks : ∀ index, (CpuPc.task slot after).Holds index → next.lock index = some cpu
  ownState : after.ownState = pc.ownState
  forks : ∀ child, after.forks = some child → pc.forks = some child
  reaps : ∀ child, after.reaps = some child → kernel.state child = .EXIT ∧
    ∀ other, other ≠ cpu → (kernel.pc other).reaps ≠ some child
  saved : after.SavedOk

/-- `childs` may change where no other CPU looks. -/
structure ListStep (kernel next : Kernel Cpu Page) (cpu : Cpu) (slot : Slot)
    (pc after : TaskPc) : Prop extends TaskCodeStep kernel next cpu slot pc after where
  same : next.state = kernel.state ∧ next.curTask = kernel.curTask
  childs : ∀ other index, other ≠ cpu → kernel.Executes other index →
    ∀ child ∈ kernel.childs index, child ∈ next.childs index
  unlisted : ∀ other index, other ≠ cpu → (kernel.pc other).hidden = some index →
    next.Unlisted index
  hidden : ∀ child, after.hidden = some child → next.Unlisted child
  free : ∀ index, kernel.state index = .FREE → next.Unlisted index
  lists : ∀ child, after.Lists child → child ∈ next.childs slot
  nodup : ∀ index, (next.childs index).Nodup
  disjoint : ∀ left right child, child ∈ next.childs left → child ∈ next.childs right →
    left = right

theorem listStep (sound : kernel.Sound) {after : TaskPc}
    (change : ListStep kernel next cpu slot pc after) : next.Sound := by
  rcases change.same with ⟨state, curTask⟩
  have atPc := change.atPc
  have forked : ∀ child, after.forks = some child → (kernel.pc cpu).forks = some child := by
    intro child forks
    rw [atPc]
    exact change.forks child forks
  refine sound.localStep cpu (.task slot after)
    { pcs := change.pcs, curTask := ?_, lock := change.lock, state := ?_,
      childs := change.childs, unlisted := change.unlisted, current := ?_,
      locks := change.locks, states := ?_, occupied := ?_, forks := ?_, reaps := ?_,
      lists := ?_, saved := ?_, hidden := change.hidden, free := ?_, nodup := change.nodup,
      disjoint := change.disjoint }
  · intro other _
    rw [curTask]
  · intro other index expected _ _
    rw [state]
  · have known := sound.current cpu
    rw [atPc] at known
    rwa [curTask]
  · rintro index expected (⟨rfl, rfl⟩ | ⟨forks, rfl⟩ | ⟨reaps, rfl⟩)
    · rw [state, change.ownState]
      exact sound.ownState atPc
    · rw [state]
      exact sound.states cpu index _ (by
        rw [atPc]
        exact .inr (.inl ⟨change.forks index forks, rfl⟩))
    · rw [state]
      exact (change.reaps index reaps).1
  · intro other index different occupies occupiesNext
    have isSlot : slot = index := by
      simpa [Occupies, change.pcs] using occupiesNext
    have here : kernel.Occupies cpu index := by
      simp [Occupies, atPc, isSlot]
    exact different (sound.occupied other cpu index occupies here)
  · intro other index different forks forksNext
    exact different (sound.forks other cpu index forks (forked index forksNext))
  · intro other index different reaps reapsNext
    exact (change.reaps index reapsNext).2 other different reaps
  · rintro index task child ⟨⟩ lists
    exact change.lists child lists
  · rintro index task ⟨⟩
    exact change.saved
  · intro index isFree
    rw [state] at isFree
    exact change.free index isFree

/-- A step of task code that changes neither states nor lists of children. -/
structure QuietStep (kernel next : Kernel Cpu Page) (cpu : Cpu) (slot : Slot)
    (pc after : TaskPc) : Prop extends TaskCodeStep kernel next cpu slot pc after where
  same : next.state = kernel.state ∧ next.childs = kernel.childs ∧
    next.curTask = kernel.curTask
  hidden : ∀ child, after.hidden = some child → pc.hidden = some child
  lists : ∀ child, after.Lists child → child ∈ kernel.childs slot

theorem quietStep (sound : kernel.Sound) {after : TaskPc}
    (change : QuietStep kernel next cpu slot pc after) : next.Sound := by
  rcases change.same with ⟨state, childs, curTask⟩
  have unlisted : ∀ index, kernel.Unlisted index → next.Unlisted index := by
    intro index isUnlisted
    rw [Unlisted, childs]
    exact isUnlisted
  refine sound.listStep
    { toTaskCodeStep := change.toTaskCodeStep, same := ⟨state, curTask⟩, childs := ?_,
      unlisted := ?_, hidden := ?_, free := ?_, lists := ?_, nodup := ?_, disjoint := ?_ }
  · intro other index _ _ child member
    rwa [childs]
  · exact fun other index _ hidden => unlisted index (sound.hidden other index hidden)
  · intro index hidden
    refine unlisted index (sound.hidden cpu index ?_)
    rw [change.atPc]
    exact change.hidden index hidden
  · exact fun index isFree => unlisted index (sound.free index isFree)
  · rw [childs]
    exact change.lists
  · rw [childs]
    exact sound.nodup
  · rw [childs]
    exact sound.disjoint

/-- A step to or from the scheduler's code. -/
structure SchedStep (kernel next : Kernel Cpu Page) (cpu : Cpu) (pc : CpuPc) : Prop
    extends CpuStep kernel next cpu pc where
  childs : next.childs = kernel.childs
  free : ∀ slot, next.state slot = .FREE → kernel.state slot = .FREE
  idle : ∀ slot task, pc = .task slot task → task.forks = none ∧ task.reaps = none ∧
    task.hidden = none ∧ (∀ child, ¬ task.Lists child) ∧ task.SavedOk

theorem schedStep (sound : kernel.Sound) {pc : CpuPc} (change : SchedStep kernel next cpu pc) :
    next.Sound := by
  have unlisted : ∀ index, kernel.Unlisted index → next.Unlisted index := by
    intro index isUnlisted
    rw [Unlisted, change.childs]
    exact isUnlisted
  have idle : pc.forks = none ∧ pc.reaps = none ∧ pc.hidden = none := by
    cases pc with
    | task slot task =>
      rcases change.idle slot task rfl with ⟨forks, reaps, hidden, _⟩
      exact ⟨forks, reaps, hidden⟩
    | _ => exact ⟨rfl, rfl, rfl⟩
  refine sound.localStep cpu pc
    { toCpuStep := change.toCpuStep, childs := ?_, unlisted := ?_, forks := by simp [idle.1],
      reaps := by simp [idle.2.1], lists := ?_, saved := ?_,
      hidden := by simp [idle.2.2], free := ?_, nodup := ?_, disjoint := ?_ }
  · intro other index _ _ child member
    rwa [change.childs]
  · exact fun other index _ hidden => unlisted index (sound.hidden other index hidden)
  · intro slot task child isTask lists
    exact absurd lists ((change.idle slot task isTask).2.2.2.1 child)
  · exact fun slot task isTask => (change.idle slot task isTask).2.2.2.2
  · exact fun index isFree => unlisted index (sound.free index (change.free index isFree))
  · rw [change.childs]
    exact sound.nodup
  · rw [change.childs]
    exact sound.disjoint

end Sound
end Kernel
end Tnix.Task
