import Tnix.Task.Kernel

/-! # The transitions of the kernel machine

Inversion of `cpuStep`: what a step does, with steps of one kind put together. -/

namespace Tnix.Task.Kernel

open Option
variable {Cpu Page : Type} [DecidableEq Cpu] [DecidableEq Page]

inductive Move (kernel : Kernel Cpu Page) (self : Slot) : TaskPc → TaskPc → Prop
  | yield : Move kernel self .run .yieldLock
  | sleep {chan} : Move kernel self .run (.sleepLock chan .run)
  | wakeup {chan} : Move kernel self .run (.wakeupLock chan 0 .run)
  | fork : Move kernel self .run .allocTq
  | exit : Move kernel self .run (.exitVisit (kernel.childs self).head?)
  | kill : Move kernel self .run .cleanPages
  | waitNone (none : kernel.childs self = []) : Move kernel self .run .run
  | wait (some : kernel.childs self ≠ []) : Move kernel self .run .waitScan
  | wakeupSkip {chan after} :
      Move kernel self (.wakeupLock chan self after) (.wakeupLock chan (self + 1) after)
  | wakeupDone {chan index after} (done : NPROC ≤ index) :
      Move kernel self (.wakeupLock chan index after) after.entry
  | wakeupPass {chan other after}
      (pass : ¬ (kernel.state other = .SLEEP ∧ kernel.chan other = some chan)) :
      Move kernel self (.wakeupTest chan other after) (.wakeupPut chan other after)
  | allocSkip {other} (taken : kernel.state other ≠ .FREE) :
      Move kernel self (.allocTest other) (.allocSkip other)
  | pagesDone {child} : Move kernel self (.laterPages child) (.forkPush child)
  | exitDone : Move kernel self (.exitVisit none) .cleanPages
  | exitNext {child} : Move kernel self (.exitVisit (some child))
      (.exitChildLock child (nextChild (kernel.childs self) child))
  | cleanDone (none : kernel.pageHead self = []) : Move kernel self .cleanPages .exitState
  | exitWake {parent} (parentIs : kernel.parent self = some parent) :
      Move kernel self .exitWake (.wakeupLock (.childs parent) 0 .exitLock)
  | waitEmpty (none : kernel.childs self = []) :
      Move kernel self .waitScan (.sleepLock (.childs self) .waitScan)
  | waitFirst {child} (first : (kernel.childs self).head? = some child) :
      Move kernel self .waitScan (.waitVisit child)
  | waitZombie {child} (zombie : kernel.state child = .EXIT) :
      Move kernel self (.waitVisit child) (.waitRemove child)
  | waitSleep {child} (alive : kernel.state child ≠ .EXIT)
      (last : nextChild (kernel.childs self) child = none) :
      Move kernel self (.waitVisit child) (.sleepLock (.childs self) .waitScan)
  | waitNext {child other} (alive : kernel.state child ≠ .EXIT)
      (next : nextChild (kernel.childs self) child = some other) :
      Move kernel self (.waitVisit child) (.waitVisit other)
  | waitCopied {child} : Move kernel self (.waitCopy child) (.waitFree child)
  | waitKilled {child} : Move kernel self (.waitCopy child) .cleanPages

inductive Locks (self : Slot) : TaskPc → Slot → TaskPc → Prop
  | yield : Locks self .yieldLock self .yieldState
  | sleep {chan after} : Locks self (.sleepLock chan after) self (.sleepChan chan after)
  | exit : Locks self .exitLock self (.switch .exited)
  | wakeup {chan after} {other : Slot} (different : other ≠ self) :
      Locks self (.wakeupLock chan other after) other (.wakeupTest chan other after)
  | alloc {other : Slot} : Locks self (.allocLock other) other (.allocTest other)
  | exitChild {child saved} :
      Locks self (.exitChildLock child saved) child (.exitMove child saved)

inductive Puts (self : Slot) : TaskPc → Slot → TaskPc → Prop
  | putLock {after} : Puts self (.putLock after) self after.entry
  | wakeup {chan after other} :
      Puts self (.wakeupPut chan other after) other (.wakeupLock chan (other + 1) after)
  | allocSkip {other} : Puts self (.allocSkip other) other (.allocLock (other + 1))
  | alloc {child} : Puts self (.allocPut child) child (.allocPutTq child)
  | exitChild {child saved} :
      Puts self (.exitChildPut child saved) child (.exitVisit saved)

/-- Stores of `new` to the `state` of `slot`; the state is `old` before it when the
locks work. -/
inductive Stores (kernel : Kernel Cpu Page) (self : Slot) :
    TaskPc → Slot → TaskState → TaskState → TaskPc → Prop
  | yield : Stores kernel self .yieldState self .RUN .READY (.switch .putLock)
  | sleep {after} :
      Stores kernel self (.sleepState after) self .RUN .SLEEP (.switch (.sleep after))
  | exit : Stores kernel self .exitState self .RUN .EXIT .exitWake
  | wakeup {chan other after} (asleep : kernel.state other = .SLEEP)
      (chanIs : kernel.chan other = some chan) :
      Stores kernel self (.wakeupTest chan other after) other .SLEEP .READY
        (.wakeupPut chan other after)
  | alloc {other} (free : kernel.state other = .FREE) :
      Stores kernel self (.allocTest other) other .FREE .INIT (.allocPut other)
  | fork {child} : Stores kernel self (.forkReady child) child .INIT .READY .run
  | wait {child} : Stores kernel self (.waitFree child) child .EXIT .FREE .run

/-- Steps of the current task on the page lists; the program counter may move on
from the kernel stack page. -/
inductive Pages (self : Slot) : Kernel Cpu Page → TaskPc → Kernel Cpu Page → TaskPc → Prop
  | alloc {kernel : Kernel Cpu Page} {page rest} (list : kernel.pagesHead = page :: rest) :
      Pages self kernel .run { kernel with
        inuse := Function.update kernel.inuse page true
        pagesHead := rest
        loose := page :: kernel.loose } .run
  | free {kernel : Kernel Cpu Page} {page} (loose : page ∈ kernel.loose)
      (inuse : kernel.inuse page = true) :
      Pages self kernel .run { kernel with
        inuse := Function.update kernel.inuse page false
        pagesHead := kernel.pagesHead ++ [page]
        loose := kernel.loose.erase page } .run
  | allocForTask {kernel allocated : Kernel Cpu Page} {page slot pc}
      (owner : pc = .run ∧ slot = self ∨ pc = .stackPage slot ∨ pc = .laterPages slot)
      (allocates : kernel.allocPageForTask slot = some (page, allocated)) :
      Pages self kernel pc allocated pc
  | stack {kernel allocated : Kernel Cpu Page} {page child}
      (allocates : kernel.allocPageForTask child = some (page, allocated)) :
      Pages self kernel (.stackPage child) (allocated.setStack child page) (.laterPages child)
  | clean {kernel : Kernel Cpu Page} {page rest} (list : kernel.pageHead self = page :: rest)
      (inuse : kernel.inuse page = true) :
      Pages self kernel .cleanPages { kernel.setPageHead self rest with
        inuse := Function.update kernel.inuse page false
        pagesHead := kernel.pagesHead ++ [page] } .cleanPages

/-- What a CPU does in one step. `slot` is the scheduler's loop variable, `self`
the current task. -/
inductive Transition (kernel : Kernel Cpu Page) (cpu : Cpu) : Kernel Cpu Page → Prop
  | move {slot self pc after} (atPc : kernel.pc cpu = .task slot pc)
      (current : kernel.curTask cpu = some self) (moves : kernel.Move self pc after) :
      Transition kernel cpu (kernel.setPc cpu (.task slot after))
  | locks {slot self pc other after} (atPc : kernel.pc cpu = .task slot pc)
      (current : kernel.curTask cpu = some self) (gets : Locks self pc other after)
      (free : kernel.lock other = none) :
      Transition kernel cpu
        ((kernel.setLock other (some cpu)).setPc cpu (.task slot after))
  | puts {slot self pc other after} (atPc : kernel.pc cpu = .task slot pc)
      (current : kernel.curTask cpu = some self) (puts : Puts self pc other after)
      (held : kernel.lock other = some cpu) :
      Transition kernel cpu ((kernel.setLock other none).setPc cpu (.task slot after))
  | stores {slot self pc other old new after} (atPc : kernel.pc cpu = .task slot pc)
      (current : kernel.curTask cpu = some self)
      (stores : kernel.Stores self pc other old new after) :
      Transition kernel cpu ((kernel.setState other new).setPc cpu (.task slot after))
  | pages {slot self pc next after} (atPc : kernel.pc cpu = .task slot pc)
      (current : kernel.curTask cpu = some self) (pages : Pages self kernel pc next after) :
      Transition kernel cpu (next.setPc cpu (.task slot after))
  | sleepChan {slot self chan after}
      (atPc : kernel.pc cpu = .task slot (.sleepChan chan after))
      (current : kernel.curTask cpu = some self) :
      Transition kernel cpu
        ((kernel.setChan self (some chan)).setPc cpu (.task slot (.sleepState after)))
  | chanNull {slot self after} (atPc : kernel.pc cpu = .task slot (.chanNull after))
      (current : kernel.curTask cpu = some self) :
      Transition kernel cpu
        ((kernel.setChan self none).setPc cpu (.task slot (.putLock after)))
  | switch {slot self context} (atPc : kernel.pc cpu = .task slot (.switch context))
      (current : kernel.curTask cpu = some self) :
      Transition kernel cpu
        ((kernel.setContext self context).setPc cpu (.schedClear slot))
  | allocTq {slot self} (atPc : kernel.pc cpu = .task slot .allocTq)
      (current : kernel.curTask cpu = some self) (free : kernel.tq = none) :
      Transition kernel cpu
        ({ kernel with tq := some cpu }.setPc cpu (.task slot (.allocLock 0)))
  | allocPutTq {slot self child} (atPc : kernel.pc cpu = .task slot (.allocPutTq child))
      (current : kernel.curTask cpu = some self) :
      Transition kernel cpu
        ({ kernel with tq := none }.setPc cpu (.task slot (.taskInit child)))
  | taskInit {slot self child} (atPc : kernel.pc cpu = .task slot (.taskInit child))
      (current : kernel.curTask cpu = some self) :
      Transition kernel cpu
        ((((kernel.setParent child self).setChilds child []).setPageHead child []).setPc cpu
          (.task slot (.stackPage child)))
  | forkPush {slot self child} (atPc : kernel.pc cpu = .task slot (.forkPush child))
      (current : kernel.curTask cpu = some self) :
      Transition kernel cpu
        ((kernel.setChilds self (kernel.childs self ++ [child])).setPc cpu
          (.task slot (.forkContext child)))
  | forkContext {slot self child} (atPc : kernel.pc cpu = .task slot (.forkContext child))
      (current : kernel.curTask cpu = some self) :
      Transition kernel cpu
        ((kernel.setContext child .putLock).setPc cpu (.task slot (.forkReady child)))
  | exitMove {slot self child saved}
      (atPc : kernel.pc cpu = .task slot (.exitMove child saved))
      (current : kernel.curTask cpu = some self) :
      Transition kernel cpu
        ((kernel.handOver self child).setPc cpu (.task slot (.exitChildPut child saved)))
  | waitRemove {slot self child} (atPc : kernel.pc cpu = .task slot (.waitRemove child))
      (current : kernel.curTask cpu = some self) :
      Transition kernel cpu
        ((kernel.setChilds self ((kernel.childs self).erase child)).setPc cpu
          (.task slot (.waitCopy child)))
  | schedLock {slot} (atPc : kernel.pc cpu = .schedLock slot)
      (free : kernel.lock slot = none) :
      Transition kernel cpu ((kernel.setLock slot (some cpu)).setPc cpu (.schedTest slot))
  | schedReady {slot} (atPc : kernel.pc cpu = .schedTest slot)
      (ready : kernel.state slot = .READY) :
      Transition kernel cpu (kernel.setPc cpu (.schedState slot))
  | schedPass {slot} (atPc : kernel.pc cpu = .schedTest slot)
      (notReady : kernel.state slot ≠ .READY) :
      Transition kernel cpu (kernel.setPc cpu (.schedClear slot))
  | schedState {slot} (atPc : kernel.pc cpu = .schedState slot) :
      Transition kernel cpu ((kernel.setState slot .RUN).setPc cpu (.schedCur slot))
  | schedCur {slot} (atPc : kernel.pc cpu = .schedCur slot) :
      Transition kernel cpu
        ((kernel.setCurTask cpu (some slot)).setPc cpu (.schedSwitch slot))
  | schedSwitch {slot} (atPc : kernel.pc cpu = .schedSwitch slot) :
      Transition kernel cpu (kernel.setPc cpu (.task slot (kernel.ctx slot).entry))
  | schedClear {slot} (atPc : kernel.pc cpu = .schedClear slot) :
      Transition kernel cpu ((kernel.setCurTask cpu none).setPc cpu (.schedPut slot))
  | schedPut {slot} (atPc : kernel.pc cpu = .schedPut slot)
      (held : kernel.lock slot = some cpu) :
      Transition kernel cpu ((kernel.setLock slot none).setPc cpu (.schedLock (slot + 1)))

omit [DecidableEq Cpu] in
theorem freePage_eq {kernel next : Kernel Cpu Page} {page : Page}
    (freed : kernel.freePage page = some next) : kernel.inuse page = true ∧
      next = { kernel with
        inuse := Function.update kernel.inuse page false
        pagesHead := kernel.pagesHead ++ [page] } := by
  unfold freePage at freed
  split at freed
  case isTrue inuse => exact ⟨inuse, (Option.some.inj freed).symm⟩
  case isFalse => cases freed

section
variable {kernel next : Kernel Cpu Page} {cpu : Cpu} {slot self : Slot} {choice : Choice Page}

theorem transition_of_run (atPc : kernel.pc cpu = .task slot .run)
    (current : kernel.curTask cpu = some self)
    (taken : kernel.taskStep cpu slot self choice .run = some next) :
    kernel.Transition cpu next := by
  cases choice with
  | go => cases taken
  | yield => exact Option.some.inj taken ▸ .move atPc current .yield
  | sleep chan => exact Option.some.inj taken ▸ .move atPc current .sleep
  | wakeup chan => exact Option.some.inj taken ▸ .move atPc current .wakeup
  | fork => exact Option.some.inj taken ▸ .move atPc current .fork
  | exit => exact Option.some.inj taken ▸ .move atPc current .exit
  | kill => exact Option.some.inj taken ▸ .move atPc current .kill
  | wait =>
    simp only [taskStep] at taken
    split at taken
    case isTrue none => exact Option.some.inj taken ▸ .move atPc current (.waitNone none)
    case isFalse some => exact Option.some.inj taken ▸ .move atPc current (.wait some)
  | allocPage =>
    cases list : kernel.pagesHead with
    | nil => simp [taskStep, allocPage, list] at taken
    | cons page rest =>
      simp only [taskStep, allocPage, list, map_some, Option.some.injEq] at taken
      exact taken ▸ .pages atPc current (.alloc list)
  | allocPageForTask =>
    rcases map_eq_some_iff.mp taken with ⟨⟨page, allocated⟩, allocates, rfl⟩
    exact .pages atPc current (.allocForTask (.inl ⟨rfl, rfl⟩) allocates)
  | freePage page =>
    simp only [taskStep] at taken
    split at taken
    case isTrue loose =>
      rcases map_eq_some_iff.mp taken with ⟨freed, frees, rfl⟩
      rcases freePage_eq frees with ⟨inuse, rfl⟩
      exact .pages atPc current (.free loose inuse)
    case isFalse => cases taken

theorem transition_of_task {pc : TaskPc} (atPc : kernel.pc cpu = .task slot pc)
    (current : kernel.curTask cpu = some self)
    (taken : kernel.taskStep cpu slot self choice pc = some next) :
    kernel.Transition cpu next := by
  cases pc with
  | run => exact transition_of_run atPc current taken
  | yieldLock =>
    rcases ite_none_right_eq_some.mp taken with ⟨free, ⟨⟩⟩
    exact .locks atPc current .yield free
  | yieldState => exact Option.some.inj taken ▸ .stores atPc current .yield
  | sleepLock chan after =>
    rcases ite_none_right_eq_some.mp taken with ⟨free, ⟨⟩⟩
    exact .locks atPc current .sleep free
  | sleepChan chan after => exact Option.some.inj taken ▸ .sleepChan atPc current
  | sleepState after => exact Option.some.inj taken ▸ .stores atPc current .sleep
  | chanNull after => exact Option.some.inj taken ▸ .chanNull atPc current
  | putLock after =>
    rcases ite_none_right_eq_some.mp taken with ⟨held, ⟨⟩⟩
    exact .puts atPc current .putLock held
  | switch context => exact Option.some.inj taken ▸ .switch atPc current
  | wakeupLock chan index after =>
    simp only [taskStep] at taken
    split at taken
    case isTrue inRange =>
      split at taken
      case isTrue same =>
        subst same
        exact Option.some.inj taken ▸ .move atPc current .wakeupSkip
      case isFalse different =>
        split at taken
        case isTrue free =>
          have gets : Locks self (.wakeupLock chan index after) ⟨index, inRange⟩
              (.wakeupTest chan ⟨index, inRange⟩ after) := .wakeup different
          exact Option.some.inj taken ▸ .locks atPc current gets free
        case isFalse => cases taken
    case isFalse done =>
      exact Option.some.inj taken ▸
        .move atPc current (.wakeupDone (Nat.le_of_not_lt done))
  | wakeupTest chan other after =>
    simp only [taskStep] at taken
    split at taken
    case isTrue asleep =>
      exact Option.some.inj taken ▸ .stores atPc current (.wakeup asleep.1 asleep.2)
    case isFalse pass => exact Option.some.inj taken ▸ .move atPc current (.wakeupPass pass)
  | wakeupPut chan other after =>
    rcases ite_none_right_eq_some.mp taken with ⟨held, ⟨⟩⟩
    exact .puts atPc current .wakeup held
  | allocTq =>
    rcases ite_none_right_eq_some.mp taken with ⟨free, ⟨⟩⟩
    exact .allocTq atPc current free
  | allocLock index =>
    simp only [taskStep] at taken
    split at taken
    case isTrue inRange =>
      rcases ite_none_right_eq_some.mp taken with ⟨free, ⟨⟩⟩
      exact .locks atPc current (@Locks.alloc self ⟨index, inRange⟩) free
    case isFalse => cases taken
  | allocTest other =>
    simp only [taskStep] at taken
    split at taken
    case isTrue free => exact Option.some.inj taken ▸ .stores atPc current (.alloc free)
    case isFalse used => exact Option.some.inj taken ▸ .move atPc current (.allocSkip used)
  | allocSkip other =>
    rcases ite_none_right_eq_some.mp taken with ⟨held, ⟨⟩⟩
    exact .puts atPc current .allocSkip held
  | allocPut child =>
    rcases ite_none_right_eq_some.mp taken with ⟨held, ⟨⟩⟩
    exact .puts atPc current .alloc held
  | allocPutTq child => exact Option.some.inj taken ▸ .allocPutTq atPc current
  | taskInit child => exact Option.some.inj taken ▸ .taskInit atPc current
  | stackPage child =>
    cases choice with
    | allocPageForTask =>
      rcases map_eq_some_iff.mp taken with ⟨⟨page, allocated⟩, allocates, rfl⟩
      exact .pages atPc current (.allocForTask (.inr (.inl rfl)) allocates)
    | go =>
      rcases map_eq_some_iff.mp taken with ⟨⟨page, allocated⟩, allocates, rfl⟩
      exact .pages atPc current (.stack allocates)
    | _ => cases taken
  | laterPages child =>
    cases choice with
    | allocPageForTask =>
      rcases map_eq_some_iff.mp taken with ⟨⟨page, allocated⟩, allocates, rfl⟩
      exact .pages atPc current (.allocForTask (.inr (.inr rfl)) allocates)
    | go => exact Option.some.inj taken ▸ .move atPc current .pagesDone
    | _ => cases taken
  | forkPush child => exact Option.some.inj taken ▸ .forkPush atPc current
  | forkContext child => exact Option.some.inj taken ▸ .forkContext atPc current
  | forkReady child => exact Option.some.inj taken ▸ .stores atPc current .fork
  | exitVisit child =>
    cases child with
    | none => exact Option.some.inj taken ▸ .move atPc current .exitDone
    | some child => exact Option.some.inj taken ▸ .move atPc current .exitNext
  | exitChildLock child saved =>
    rcases ite_none_right_eq_some.mp taken with ⟨free, ⟨⟩⟩
    exact .locks atPc current .exitChild free
  | exitMove child saved => exact Option.some.inj taken ▸ .exitMove atPc current
  | exitChildPut child saved =>
    rcases ite_none_right_eq_some.mp taken with ⟨held, ⟨⟩⟩
    exact .puts atPc current .exitChild held
  | cleanPages =>
    simp only [taskStep] at taken
    split at taken
    case h_1 none => exact Option.some.inj taken ▸ .move atPc current (.cleanDone none)
    case h_2 page rest list =>
      rcases map_eq_some_iff.mp taken with ⟨freed, frees, rfl⟩
      rcases freePage_eq frees with ⟨inuse, rfl⟩
      exact .pages atPc current (.clean list inuse)
  | exitState => exact Option.some.inj taken ▸ .stores atPc current .exit
  | exitWake =>
    simp only [taskStep] at taken
    split at taken
    case h_1 parent parentIs =>
      exact Option.some.inj taken ▸ .move atPc current (.exitWake parentIs)
    case h_2 => cases taken
  | exitLock =>
    rcases ite_none_right_eq_some.mp taken with ⟨free, ⟨⟩⟩
    exact .locks atPc current .exit free
  | waitScan =>
    simp only [taskStep] at taken
    split at taken
    case h_1 none =>
      exact Option.some.inj taken ▸
        .move atPc current (.waitEmpty (List.head?_eq_none_iff.mp none))
    case h_2 child first =>
      exact Option.some.inj taken ▸ .move atPc current (.waitFirst first)
  | waitVisit child =>
    simp only [taskStep] at taken
    split at taken
    case isTrue zombie =>
      exact Option.some.inj taken ▸ .move atPc current (.waitZombie zombie)
    case isFalse alive =>
      split at taken
      case h_1 last => exact Option.some.inj taken ▸ .move atPc current (.waitSleep alive last)
      case h_2 other isNext =>
        exact Option.some.inj taken ▸ .move atPc current (.waitNext alive isNext)
  | waitRemove child => exact Option.some.inj taken ▸ .waitRemove atPc current
  | waitCopy child =>
    cases choice with
    | go => exact Option.some.inj taken ▸ .move atPc current .waitCopied
    | kill => exact Option.some.inj taken ▸ .move atPc current .waitKilled
    | _ => cases taken
  | waitFree child => exact Option.some.inj taken ▸ .stores atPc current .wait

theorem transition_of_step (taken : kernel.cpuStep cpu choice = some next) :
    kernel.Transition cpu next := by
  unfold cpuStep at taken
  split at taken
  case h_1 slot atPc =>
    rcases ite_none_right_eq_some.mp taken with ⟨free, ⟨⟩⟩
    exact .schedLock atPc free
  case h_2 slot atPc =>
    split at taken
    case isTrue ready => exact Option.some.inj taken ▸ .schedReady atPc ready
    case isFalse notReady => exact Option.some.inj taken ▸ .schedPass atPc notReady
  case h_3 slot atPc => exact Option.some.inj taken ▸ .schedState atPc
  case h_4 slot atPc => exact Option.some.inj taken ▸ .schedCur atPc
  case h_5 slot atPc => exact Option.some.inj taken ▸ .schedSwitch atPc
  case h_6 slot pc atPc =>
    split at taken
    case h_1 self current => exact transition_of_task atPc current taken
    case h_2 => cases taken
  case h_7 slot atPc => exact Option.some.inj taken ▸ .schedClear atPc
  case h_8 slot atPc =>
    rcases ite_none_right_eq_some.mp taken with ⟨held, ⟨⟩⟩
    exact .schedPut atPc held

end
end Tnix.Task.Kernel
