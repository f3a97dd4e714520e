import Tnix.Task.Thread

/-! # Task slots, CPUs and physical pages

`sche.c`, the system calls on processes and the page allocator as a machine over any number of
CPUs. Lock operations, stores to `state` and `cur_task`, context switches and operations on a
list or on the allocator are steps of their own; a task that is not running has only its saved
context. -/

namespace Tnix.Task

open Function

abbrev Slot := Fin NPROC

/-- What `sleep` waits for: `&t->childs` of some task, or something else. -/
inductive Channel
  | childs (task : Slot)
  | other (address : Nat)
  deriving DecidableEq, Repr

inductive SleepReturn
  /-- Code that is not modelled further, in the kernel or the user program. -/
  | run
  /-- The outer loop of `sys_wait`. -/
  | waitScan
  deriving DecidableEq, Repr

inductive WakeupReturn
  | run
  /-- `spin_get(&t->lock)` in `sys_exit` and `kill`. -/
  | exitLock
  deriving DecidableEq, Repr

/-- A saved context: what the task does when it is switched to. -/
inductive Context
  /-- In `sleep`, `t->chan = NULL`. -/
  | sleep (after : SleepReturn)
  /-- In `yield`, `first_sched` and the child side of `sys_fork`:
  `spin_put(&t->lock)`. -/
  | putLock
  /-- After the last `context_switch` of `sys_exit` and `kill`. -/
  | exited
  deriving DecidableEq, Repr

/-- Where the code of the current task is. The names say what it does next. -/
inductive TaskPc
  | run
  /-- `yield`: `spin_get(&t->lock)`. -/
  | yieldLock
  /-- `yield`: `t->state = READY`. -/
  | yieldState
  /-- `sleep`: `spin_get(&t->lock)`. -/
  | sleepLock (chan : Channel) (after : SleepReturn)
  /-- `sleep`: `t->chan = chan`. -/
  | sleepChan (chan : Channel) (after : SleepReturn)
  /-- `sleep`: `t->state = SLEEP`. -/
  | sleepState (after : SleepReturn)
  /-- `sleep`, switched to again: `t->chan = NULL`. -/
  | chanNull (after : SleepReturn)
  /-- `spin_put(&t->lock)` after a switch. -/
  | putLock (after : SleepReturn)
  /-- `context_switch` to the scheduler. -/
  | switch (context : Context)
  /-- `wakeup`: the loop test, then `spin_get` of the slot's lock. -/
  | wakeupLock (chan : Channel) (index : Nat) (after : WakeupReturn)
  /-- `wakeup`: the test of `state` and `chan`. -/
  | wakeupTest (chan : Channel) (slot : Slot) (after : WakeupReturn)
  /-- `wakeup`: `spin_put` of the slot's lock. -/
  | wakeupPut (chan : Channel) (slot : Slot) (after : WakeupReturn)
  /-- `alloc_task`: `spin_get(&tq)`. -/
  | allocTq
  /-- `alloc_task`: the loop test, then `spin_get` of the slot's lock. -/
  | allocLock (index : Nat)
  /-- `alloc_task`: the test of `state`, and `state = INIT`. -/
  | allocTest (slot : Slot)
  /-- `alloc_task`: `spin_put` of a slot that is not free. -/
  | allocSkip (slot : Slot)
  /-- `alloc_task`: `spin_put` of the slot it takes. -/
  | allocPut (child : Slot)
  /-- `alloc_task`: `spin_put(&tq)`. -/
  | allocPutTq (child : Slot)
  /-- `task_info_init`, and the empty lists of `task_mm_init`. -/
  | taskInit (child : Slot)
  /-- `task_mm_init`: pages up to and including the kernel stack. -/
  | stackPage (child : Slot)
  /-- `task_mm_init`: the pages after the kernel stack. -/
  | laterPages (child : Slot)
  /-- `sys_fork`: `list_pushback(&p->childs, &c->self)`. -/
  | forkPush (child : Slot)
  /-- `sys_fork`: the copy of the stack and `dump_context(&c->ctx)`. -/
  | forkContext (child : Slot)
  /-- `sys_fork`: `c->state = READY`. -/
  | forkReady (child : Slot)
  /-- `sys_exit`: the loop over the children. -/
  | exitVisit (child : Option Slot)
  /-- `sys_exit`: `spin_get(&c->lock)`, the next child already read. -/
  | exitChildLock (child : Slot) (saved : Option Slot)
  /-- `sys_exit`: the child is handed to `task_queue[0]`. -/
  | exitMove (child : Slot) (saved : Option Slot)
  /-- `sys_exit`: `spin_put(&c->lock)`. -/
  | exitChildPut (child : Slot) (saved : Option Slot)
  /-- `clean_mm_source`: the loop over the pages of the task. -/
  | cleanPages
  /-- `sys_exit` and `kill`: `t->state = EXIT`. -/
  | exitState
  /-- `sys_exit` and `kill`: `t->parent` is read for `wakeup(&t->parent->childs)`. -/
  | exitWake
  /-- `sys_exit` and `kill`: `spin_get(&t->lock)`. -/
  | exitLock
  /-- `sys_wait`: `child = t->childs.next`. -/
  | waitScan
  /-- `sys_wait`: the test of a child's `state`. -/
  | waitVisit (child : Slot)
  /-- `sys_wait`: `list_remove(&c->self)`. -/
  | waitRemove (child : Slot)
  /-- `sys_wait`: `copy_to_user`, which may kill the task. -/
  | waitCopy (child : Slot)
  /-- `sys_wait`: `c->state = FREE`. -/
  | waitFree (child : Slot)

/-- Where a CPU is; `slot` is the loop variable of `task_schedule`. -/
inductive CpuPc
  | schedLock (slot : Slot)
  | schedTest (slot : Slot)
  | schedState (slot : Slot)
  | schedCur (slot : Slot)
  | schedSwitch (slot : Slot)
  /-- In the code of a task; the scheduler's context is saved. -/
  | task (slot : Slot) (pc : TaskPc)
  | schedClear (slot : Slot)
  | schedPut (slot : Slot)

/-- The fields of `task_queue`, of the CPUs and of `phy_mem`. `kstack` is the page
`t->kstack - PGSIZE`, `pageHead` the list `mm_struct->page_head`. `loose` records
the pages that `alloc_page` has handed out and no task list holds. -/
structure Kernel (Cpu Page : Type) where
  state : Slot → TaskState
  chan : Slot → Option Channel
  lock : Slot → Option Cpu
  parent : Slot → Option Slot
  childs : Slot → List Slot
  ctx : Slot → Context
  kstack : Slot → Option Page
  pageHead : Slot → List Page
  tq : Option Cpu
  pc : Cpu → CpuPc
  curTask : Cpu → Option Slot
  inuse : Page → Bool
  pagesHead : List Page
  loose : List Page

/-- What unmodelled code chooses to do. -/
inductive Choice (Page : Type)
  /-- No choice is left. -/
  | go
  | yield
  | sleep (chan : Channel)
  | wakeup (chan : Channel)
  | fork
  | exit
  | kill
  | wait
  | allocPage
  | allocPageForTask
  | freePage (page : Page)

def SleepReturn.entry : SleepReturn → TaskPc
  | .run => .run
  | .waitScan => .waitScan

def WakeupReturn.entry : WakeupReturn → TaskPc
  | .run => .run
  | .exitLock => .exitLock

def Context.entry : Context → TaskPc
  | .sleep after => .chanNull after
  | .putLock => .putLock .run
  | .exited => .run

def nextChild (childs : List Slot) (child : Slot) : Option Slot :=
  (childs.dropWhile (· ≠ child)).tail.head?

namespace Kernel

variable {Cpu Page : Type} [DecidableEq Cpu] [DecidableEq Page]

/-! ## Stores -/

section
variable (kernel : Kernel Cpu Page)

@[simp] def setPc (cpu : Cpu) (pc : CpuPc) : Kernel Cpu Page :=
  { kernel with pc := update kernel.pc cpu pc }

@[simp] def setCurTask (cpu : Cpu) (slot : Option Slot) : Kernel Cpu Page :=
  { kernel with curTask := update kernel.curTask cpu slot }

@[simp] def setState (slot : Slot) (state : TaskState) : Kernel Cpu Page :=
  { kernel with state := update kernel.state slot state }

@[simp] def setChan (slot : Slot) (chan : Option Channel) : Kernel Cpu Page :=
  { kernel with chan := update kernel.chan slot chan }

@[simp] def setLock (slot : Slot) (holder : Option Cpu) : Kernel Cpu Page :=
  { kernel with lock := update kernel.lock slot holder }

@[simp] def setContext (slot : Slot) (context : Context) : Kernel Cpu Page :=
  { kernel with ctx := update kernel.ctx slot context }

@[simp] def setChilds (slot : Slot) (childs : List Slot) : Kernel Cpu Page :=
  { kernel with childs := update kernel.childs slot childs }

@[simp] def setParent (slot parent : Slot) : Kernel Cpu Page :=
  { kernel with parent := update kernel.parent slot (some parent) }

@[simp] def setPageHead (slot : Slot) (pages : List Page) : Kernel Cpu Page :=
  { kernel with pageHead := update kernel.pageHead slot pages }

@[simp] def setStack (slot : Slot) (page : Page) : Kernel Cpu Page :=
  { kernel with kstack := update kernel.kstack slot (some page) }

/-- `list_remove(&c->self)` and `list_pushback` to the list of `task_queue[0]`. -/
def handOver (slot child : Slot) : Kernel Cpu Page :=
  let removed := kernel.setChilds slot ((kernel.childs slot).erase child)
  (removed.setChilds 0 (removed.childs 0 ++ [child])).setParent child 0

def allocPage : Option (Page × Kernel Cpu Page) :=
  match kernel.pagesHead with
  | [] => none
  | page :: rest => some (page,
      { kernel with inuse := update kernel.inuse page true, pagesHead := rest })

def allocPageForTask (slot : Slot) : Option (Page × Kernel Cpu Page) :=
  kernel.allocPage.map fun allocated =>
    (allocated.1, allocated.2.setPageHead slot (allocated.2.pageHead slot ++ [allocated.1]))

/-- `free_page(p)`; `none` is the panic of a double free. -/
def freePage (page : Page) : Option (Kernel Cpu Page) :=
  if kernel.inuse page then
    some { kernel with
      inuse := update kernel.inuse page false
      pagesHead := kernel.pagesHead ++ [page] }
  else none

end

/-! ## Steps -/

def taskStep (kernel : Kernel Cpu Page) (cpu : Cpu) (slot self : Slot) (choice : Choice Page) :
    TaskPc → Option (Kernel Cpu Page)
  | .run =>
    match choice with
    | .go => none
    | .yield => some (kernel.setPc cpu (.task slot .yieldLock))
    | .sleep chan => some (kernel.setPc cpu (.task slot (.sleepLock chan .run)))
    | .wakeup chan => some (kernel.setPc cpu (.task slot (.wakeupLock chan 0 .run)))
    | .fork => some (kernel.setPc cpu (.task slot .allocTq))
    | .exit =>
      some (kernel.setPc cpu (.task slot (.exitVisit (kernel.childs self).head?)))
    | .kill => some (kernel.setPc cpu (.task slot .cleanPages))
    | .wait =>
      if kernel.childs self = [] then some (kernel.setPc cpu (.task slot .run))
      else some (kernel.setPc cpu (.task slot .waitScan))
    | .allocPage =>
      kernel.allocPage.map fun allocated =>
        { allocated.2 with loose := allocated.1 :: allocated.2.loose }.setPc cpu
          (.task slot .run)
    | .allocPageForTask =>
      (kernel.allocPageForTask self).map fun allocated =>
        allocated.2.setPc cpu (.task slot .run)
    | .freePage page =>
      if page ∈ kernel.loose then
        (freePage { kernel with loose := kernel.loose.erase page } page).map
          fun freed => freed.setPc cpu (.task slot .run)
      else none
  | .yieldLock =>
    if kernel.lock self = none then
      some ((kernel.setLock self (some cpu)).setPc cpu (.task slot .yieldState))
    else none
  | .yieldState =>
    some ((kernel.setState self .READY).setPc cpu (.task slot (.switch .putLock)))
  | .sleepLock chan after =>
    if kernel.lock self = none then
      some ((kernel.setLock self (some cpu)).setPc cpu (.task slot (.sleepChan chan after)))
    else none
  | .sleepChan chan after =>
    some ((kernel.setChan self (some chan)).setPc cpu (.task slot (.sleepState after)))
  | .sleepState after =>
    some ((kernel.setState self .SLEEP).setPc cpu (.task slot (.switch (.sleep after))))
  | .chanNull after =>
    some ((kernel.setChan self none).setPc cpu (.task slot (.putLock after)))
  | .putLock after =>
    if kernel.lock self = some cpu then
      some ((kernel.setLock self none).setPc cpu (.task slot after.entry))
    else none
  | .switch context =>
    some ((kernel.setContext self context).setPc cpu (.schedClear slot))
  | .wakeupLock chan index after =>
    if inRange : index < NPROC then
      if ⟨index, inRange⟩ = self then
        some (kernel.setPc cpu (.task slot (.wakeupLock chan (index + 1) after)))
      else if kernel.lock ⟨index, inRange⟩ = none then
        some ((kernel.setLock ⟨index, inRange⟩ (some cpu)).setPc cpu
          (.task slot (.wakeupTest chan ⟨index, inRange⟩ after)))
      else none
    else some (kernel.setPc cpu (.task slot after.entry))
  | .wakeupTest chan other after =>
    if kernel.state other = .SLEEP ∧ kernel.chan other = some chan then
      some ((kernel.setState other .READY).setPc cpu (.task slot (.wakeupPut chan other after)))
    else some (kernel.setPc cpu (.task slot (.wakeupPut chan other after)))
  | .wakeupPut chan other after =>
    if kernel.lock other = some cpu then
      some ((kernel.setLock other none).setPc cpu
        (.task slot (.wakeupLock chan (other + 1) after)))
    else none
  | .allocTq =>
    if kernel.tq = none then
      some ({ kernel with tq := some cpu }.setPc cpu (.task slot (.allocLock 0)))
    else none
  | .allocLock index =>
    if inRange : index < NPROC then
      if kernel.lock ⟨index, inRange⟩ = none then
        some ((kernel.setLock ⟨index, inRange⟩ (some cpu)).setPc cpu
          (.task slot (.allocTest ⟨index, inRange⟩)))
      else none
    -- panic("alloc_task: task too much")
    else none
  | .allocTest other =>
    if kernel.state other = .FREE then
      some ((kernel.setState other .INIT).setPc cpu (.task slot (.allocPut other)))
    else some (kernel.setPc cpu (.task slot (.allocSkip other)))
  | .allocSkip other =>
    if kernel.lock other = some cpu then
      some ((kernel.setLock other none).setPc cpu (.task slot (.allocLock (other + 1))))
    else none
  | .allocPut child =>
    if kernel.lock child = some cpu then
      some ((kernel.setLock child none).setPc cpu (.task slot (.allocPutTq child)))
    else none
  | .allocPutTq child =>
    some ({ kernel with tq := none }.setPc cpu (.task slot (.taskInit child)))
  | .taskInit child =>
    some ((((kernel.setParent child self).setChilds child []).setPageHead child []).setPc cpu
      (.task slot (.stackPage child)))
  | .stackPage child =>
    match choice with
    | .allocPageForTask =>
      (kernel.allocPageForTask child).map fun allocated =>
        allocated.2.setPc cpu (.task slot (.stackPage child))
    | .go =>
      (kernel.allocPageForTask child).map fun allocated =>
        (allocated.2.setStack child allocated.1).setPc cpu (.task slot (.laterPages child))
    | _ => none
  | .laterPages child =>
    match choice with
    | .allocPageForTask =>
      (kernel.allocPageForTask child).map fun allocated =>
        allocated.2.setPc cpu (.task slot (.laterPages child))
    | .go => some (kernel.setPc cpu (.task slot (.forkPush child)))
    | _ => none
  | .forkPush child =>
    some ((kernel.setChilds self (kernel.childs self ++ [child])).setPc cpu
      (.task slot (.forkContext child)))
  | .forkContext child =>
    some ((kernel.setContext child .putLock).setPc cpu (.task slot (.forkReady child)))
  | .forkReady child =>
    some ((kernel.setState child .READY).setPc cpu (.task slot .run))
  | .exitVisit none => some (kernel.setPc cpu (.task slot .cleanPages))
  | .exitVisit (some child) =>
    some (kernel.setPc cpu
      (.task slot (.exitChildLock child (nextChild (kernel.childs self) child))))
  | .exitChildLock child saved =>
    if kernel.lock child = none then
      some ((kernel.setLock child (some cpu)).setPc cpu (.task slot (.exitMove child saved)))
    else none
  | .exitMove child saved =>
    some ((kernel.handOver self child).setPc cpu (.task slot (.exitChildPut child saved)))
  | .exitChildPut child saved =>
    if kernel.lock child = some cpu then
      some ((kernel.setLock child none).setPc cpu (.task slot (.exitVisit saved)))
    else none
  | .cleanPages =>
    match kernel.pageHead self with
    | [] => some (kernel.setPc cpu (.task slot .exitState))
    | page :: rest =>
      ((kernel.setPageHead self rest).freePage page).map fun freed =>
        freed.setPc cpu (.task slot .cleanPages)
  | .exitState => some ((kernel.setState self .EXIT).setPc cpu (.task slot .exitWake))
  | .exitWake =>
    match kernel.parent self with
    | some parent =>
      some (kernel.setPc cpu (.task slot (.wakeupLock (.childs parent) 0 .exitLock)))
    | none => none
  | .exitLock =>
    if kernel.lock self = none then
      some ((kernel.setLock self (some cpu)).setPc cpu (.task slot (.switch .exited)))
    else none
  | .waitScan =>
    match (kernel.childs self).head? with
    | none => some (kernel.setPc cpu (.task slot (.sleepLock (.childs self) .waitScan)))
    | some child => some (kernel.setPc cpu (.task slot (.waitVisit child)))
  | .waitVisit child =>
    if kernel.state child = .EXIT then
      some (kernel.setPc cpu (.task slot (.waitRemove child)))
    else
      match nextChild (kernel.childs self) child with
      | none => some (kernel.setPc cpu (.task slot (.sleepLock (.childs self) .waitScan)))
      | some other => some (kernel.setPc cpu (.task slot (.waitVisit other)))
  | .waitRemove child =>
    some ((kernel.setChilds self ((kernel.childs self).erase child)).setPc cpu
      (.task slot (.waitCopy child)))
  | .waitCopy child =>
    match choice with
    | .go => some (kernel.setPc cpu (.task slot (.waitFree child)))
    | .kill => some (kernel.setPc cpu (.task slot .cleanPages))
    | _ => none
  | .waitFree child =>
    some ((kernel.setState child .FREE).setPc cpu (.task slot .run))

def cpuStep (kernel : Kernel Cpu Page) (cpu : Cpu) (choice : Choice Page) :
    Option (Kernel Cpu Page) :=
  match kernel.pc cpu with
  | .schedLock slot =>
    if kernel.lock slot = none then
      some ((kernel.setLock slot (some cpu)).setPc cpu (.schedTest slot))
    else none
  | .schedTest slot =>
    if kernel.state slot = .READY then some (kernel.setPc cpu (.schedState slot))
    else some (kernel.setPc cpu (.schedClear slot))
  | .schedState slot =>
    some ((kernel.setState slot .RUN).setPc cpu (.schedCur slot))
  | .schedCur slot =>
    some ((kernel.setCurTask cpu (some slot)).setPc cpu (.schedSwitch slot))
  | .schedSwitch slot => some (kernel.setPc cpu (.task slot (kernel.ctx slot).entry))
  | .task slot pc =>
    match kernel.curTask cpu with
    | some self => kernel.taskStep cpu slot self choice pc
    | none => none
  | .schedClear slot =>
    some ((kernel.setCurTask cpu none).setPc cpu (.schedPut slot))
  | .schedPut slot =>
    if kernel.lock slot = some cpu then
      some ((kernel.setLock slot none).setPc cpu (.schedLock (slot + 1)))
    else none

structure Label (Cpu Page : Type) where
  cpu : Cpu
  choice : Choice Page

/-- The page lists and the allocator agree: a page is free, on one task's list, or
handed out otherwise. -/
structure Partitioned (kernel : Kernel Cpu Page) : Prop where
  freeNodup : kernel.pagesHead.Nodup
  free : ∀ page ∈ kernel.pagesHead, kernel.inuse page = false
  headNodup : ∀ slot, (kernel.pageHead slot).Nodup
  head : ∀ slot, ∀ page ∈ kernel.pageHead slot, kernel.inuse page = true
  headDisjoint : ∀ left right page, page ∈ kernel.pageHead left →
    page ∈ kernel.pageHead right → left = right
  looseNodup : kernel.loose.Nodup
  loose : ∀ page ∈ kernel.loose, kernel.inuse page = true
  looseDisjoint : ∀ slot, ∀ page ∈ kernel.loose, page ∉ kernel.pageHead slot

/-- The state the boot code leaves: `task_queue[0]` is ready, with its pages, and
every CPU enters `task_schedule`. -/
structure Boot (kernel : Kernel Cpu Page) : Prop where
  state : kernel.state = fun slot => if slot = 0 then .READY else .FREE
  lock : kernel.lock = fun _ => none
  childs : kernel.childs = fun _ => []
  tq : kernel.tq = none
  pc : kernel.pc = fun _ => .schedLock 0
  curTask : kernel.curTask = fun _ => none
  ctx : kernel.ctx 0 = .putLock
  partitioned : kernel.Partitioned
  kstack : ∃ page ∈ kernel.pageHead 0, kernel.kstack 0 = some page
  pages : ∀ slot, slot ≠ 0 → kernel.pageHead slot = []

def machine (Cpu Page : Type) [DecidableEq Cpu] [DecidableEq Page] :
    Machine (Kernel Cpu Page) (Label Cpu Page) where
  Initial := Boot
  step kernel label := kernel.cpuStep label.cpu label.choice

end Kernel
end Tnix.Task
