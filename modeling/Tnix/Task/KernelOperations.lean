import Tnix.Task.ProcessTree

/-! # The operations of the process tree in the kernel

A call during which the other CPUs stand still does to `state`, `parent` and the lists of
children what the operation of `Tasks` does. -/

namespace Tnix.Task.Kernel

open Function Relation Tasks
variable {Cpu Page : Type} {cpu : Cpu} {slot self : Slot}
  {kernel next : Kernel Cpu Page} {pc after : TaskPc} {tree final : Tasks} {child : Slot}

def tasks (kernel : Kernel Cpu Page) : Tasks := ⟨kernel.state, kernel.parent, kernel.childs⟩

/-- A task in a system call. Nobody holds a lock, and its pages are in use. -/
structure InCall (cpu : Cpu) (slot task : Slot) (pc : TaskPc) (tree : Tasks)
    (kernel : Kernel Cpu Page) : Prop where
  pc : kernel.pc cpu = .task slot pc
  current : kernel.curTask cpu = some task
  tree : kernel.tasks = tree
  free : kernel.lock = fun _ => none
  tq : kernel.tq = none
  nodup : (kernel.pageHead task).Nodup
  inuse : ∀ page ∈ kernel.pageHead task, kernel.inuse page = true

theorem InCall.state (call : InCall cpu slot self pc tree kernel) :
    kernel.state = tree.state := congrArg Tasks.state call.tree

theorem InCall.childs (call : InCall cpu slot self pc tree kernel) :
    kernel.childs = tree.childs := congrArg Tasks.childs call.tree

variable [DecidableEq Cpu] [DecidableEq Page]

/-- Steps of the CPU alone lead to a place of the call, with the tree as it is then. -/
def Leads (cpu : Cpu) (slot self : Slot) (kernel : Kernel Cpu Page) (pc : TaskPc)
    (tree : Tasks) : Prop :=
  ∃ next, ReflTransGen (fun kernel next => ∃ choice, kernel.cpuStep cpu choice = some next)
    kernel next ∧ InCall cpu slot self pc tree next

theorem InCall.leads (call : InCall cpu slot self pc tree kernel) :
    Leads cpu slot self kernel pc tree :=
  ⟨kernel, .refl, call⟩

theorem Leads.step (choice : Choice Page) (atPc : kernel.pc cpu = .task slot pc)
    (current : kernel.curTask cpu = some self)
    (taken : kernel.taskStep cpu slot self choice pc = some next)
    (leads : Leads cpu slot self next after final) : Leads cpu slot self kernel after final := by
  rcases leads with ⟨last, steps, call⟩
  refine ⟨last, .head ⟨choice, ?_⟩ steps, call⟩
  rw [cpuStep, atPc]
  simp only [current]
  exact taken

theorem Leads.trans (leads : Leads cpu slot self kernel pc tree)
    (goesOn : ∀ {next : Kernel Cpu Page}, InCall cpu slot self pc tree next →
      Leads cpu slot self next after final) : Leads cpu slot self kernel after final := by
  rcases leads with ⟨next, steps, call⟩
  rcases goesOn call with ⟨last, more, ends⟩
  exact ⟨last, steps.trans more, ends⟩

theorem InCall.move (call : InCall cpu slot self pc tree kernel) (choice : Choice Page)
    (taken : kernel.taskStep cpu slot self choice pc =
      some (kernel.setPc cpu (.task slot after))) : Leads cpu slot self kernel after tree :=
  .step choice call.pc call.current taken (InCall.leads ⟨update_self .., call.current, call.tree,
    call.free, call.tq, call.nodup, call.inuse⟩)

/-! ## `sys_exit` and `kill` -/

theorem InCall.handOver (call : InCall cpu slot self (.exitVisit (some child)) tree kernel) :
    Leads cpu slot self kernel (.exitVisit (nextChild (tree.childs self) child))
      (tree.handOver self child) := by
  rcases call with ⟨atPc, current, rfl, free, tq, nodup, inuse⟩
  refine .step .go atPc current rfl ?_
  refine .step .go (update_self ..) current (if_pos (congrFun free child)) ?_
  refine .step .go (update_self ..) current rfl ?_
  refine .step .go (update_self ..) current (if_pos (update_self ..)) ?_
  refine InCall.leads ⟨update_self .., current, rfl, ?_, tq, nodup, inuse⟩
  simp [Kernel.handOver, free]

theorem InCall.handOverFrom (turns : Nat) : ∀ {child : Option Slot} {tree : Tasks}
    {kernel : Kernel Cpu Page}, InCall cpu slot self (.exitVisit child) tree kernel →
      Tasks.handOverFrom self turns child tree = some final →
        Leads cpu slot self kernel (.exitVisit none) final := by
  induction turns with
  | zero =>
    rintro (_ | child) tree kernel call ran
    · cases ran
      exact call.leads
    · cases ran
  | succ turns induction =>
    rintro (_ | child) tree kernel call ran
    · cases ran
      exact call.leads
    · exact call.handOver.trans fun later => induction later ran

theorem InCall.cleanPages (pages : List Page) : ∀ {kernel : Kernel Cpu Page},
    kernel.pageHead self = pages → InCall cpu slot self .cleanPages tree kernel →
      Leads cpu slot self kernel .exitState tree := by
  induction pages with
  | nil =>
    intro kernel isNil call
    exact call.move .go (by simp only [taskStep, isNil])
  | cons page rest induction =>
    rintro kernel isCons ⟨atPc, current, rfl, free, tq, nodup, inuse⟩
    rw [isCons] at nodup inuse
    have isUsed := inuse page List.mem_cons_self
    refine .step .go atPc current (by simp [taskStep, isCons, Kernel.freePage, isUsed]; rfl) ?_
    refine induction (update_self ..) ⟨update_self .., current, rfl, free, tq, ?_, ?_⟩
    · simpa using (List.nodup_cons.mp nodup).2
    · intro other isOther
      have listed : other ∈ rest := by simpa using isOther
      have different : other ≠ page := fun same => (List.nodup_cons.mp nodup).1 (same ▸ listed)
      simpa [update_of_ne different] using inuse other (List.mem_cons_of_mem _ listed)

/-- `kill`, and the end of `sys_exit`. -/
theorem InCall.ends (call : InCall cpu slot self .cleanPages tree kernel) :
    Leads cpu slot self kernel .exitWake (tree.kill self) := by
  refine (call.cleanPages _ rfl).trans ?_
  rintro next ⟨atPc, current, rfl, free, tq, nodup, inuse⟩
  exact .step .go atPc current rfl
    (InCall.leads ⟨update_self .., current, rfl, free, tq, nodup, inuse⟩)

theorem InCall.kill (call : InCall cpu slot self .run tree kernel) :
    Leads cpu slot self kernel .exitWake (tree.kill self) :=
  (call.move .kill rfl).trans fun later => later.ends

theorem InCall.exit (call : InCall cpu slot self .run tree kernel)
    (exits : tree.exit self = some final) : Leads cpu slot self kernel .exitWake final := by
  rcases Option.map_eq_some_iff.mp exits with ⟨moved, ran, rfl⟩
  rw [← call.childs] at ran
  refine (call.move .exit rfl).trans fun first => ?_
  refine (first.handOverFrom _ ran).trans fun last => ?_
  exact (last.move .go rfl).trans fun later => later.ends

/-! ## `sys_wait` -/

theorem nextChild_append {front rest : List Slot} (notBefore : child ∉ front) :
    nextChild (front ++ child :: rest) child = rest.head? := by
  have skipped : ∀ other ∈ front, decide (other ≠ child) = true := fun other isOther =>
    decide_eq_true fun same => notBefore (same ▸ isOther)
  rw [nextChild, List.dropWhile_append_of_pos skipped]
  simp

/-- The scan of the list of children from one that it has got to. -/
theorem InCall.scan {rest : List Slot} (nodup : (tree.childs self).Nodup) :
    ∀ {first : Slot} {front : List Slot} {kernel : Kernel Cpu Page},
      tree.childs self = front ++ first :: rest →
      (first :: rest).find? (fun child => tree.state child = .EXIT) = some child →
      InCall cpu slot self (.waitVisit first) tree kernel →
        Leads cpu slot self kernel (.waitRemove child) tree := by
  induction rest with
  | nil =>
    intro first front kernel _ found call
    rcases List.find?_cons_eq_some.mp found with ⟨exited, rfl⟩ | ⟨_, later⟩
    · exact call.move .go (if_pos (call.state ▸ of_decide_eq_true exited))
    · cases later
  | cons second rest induction =>
    intro first front kernel isList found call
    rcases List.find?_cons_eq_some.mp found with ⟨exited, rfl⟩ | ⟨alive, later⟩
    · exact call.move .go (if_pos (call.state ▸ of_decide_eq_true exited))
    · have notExited : ¬ kernel.state first = .EXIT := by
        rw [call.state]
        simpa using alive
      have notBefore : first ∉ front := by
        rw [isList, List.nodup_append] at nodup
        exact fun before => nodup.2.2 first before first List.mem_cons_self rfl
      have isNext : nextChild (kernel.childs self) first = some second := by
        rw [call.childs, isList, nextChild_append notBefore]
        rfl
      have visit : Leads cpu slot self kernel (.waitVisit second) tree :=
        call.move .go (by simp only [taskStep, if_neg notExited, isNext])
      exact visit.trans (induction (isList.trans (List.append_cons front first _)) later)

/-- The call reaps the first child that has exited, or is killed by `copy_to_user`. -/
theorem InCall.wait (call : InCall cpu slot self .run tree kernel)
    (nodup : (tree.childs self).Nodup) {copied : Bool}
    (waits : tree.wait self copied = some final) : Leads cpu slot self kernel
      (if tree.childs self = [] ∨ copied = true then .run else .exitWake) final := by
  rw [Tasks.wait] at waits
  split at waits
  case isTrue isNil =>
    cases waits
    rw [if_pos (.inl isNil)]
    exact call.move .wait (if_pos (call.childs ▸ isNil))
  case isFalse some =>
    rcases Option.bind_eq_some_iff.mp waits with ⟨child, found, isFinal⟩
    rcases List.exists_cons_of_ne_nil some with ⟨first, rest, isList⟩
    refine (call.move .wait (if_neg (call.childs ▸ some))).trans fun there => ?_
    have visit : Leads cpu slot self _ (.waitVisit first) tree :=
      there.move .go (by simp only [taskStep, there.childs, isList, List.head?_cons])
    have whole : tree.childs self = [] ++ first :: rest := isList
    refine (visit.trans (InCall.scan nodup whole (isList ▸ found))).trans ?_
    rintro next ⟨atPc, current, rfl, free, tq, pages, inuse⟩
    refine .step .go atPc current rfl ?_
    cases copied with
    | true =>
      cases isFinal
      rw [if_pos (.inr rfl)]
      refine .step .go (update_self ..) current rfl (.step .go (update_self ..) current rfl ?_)
      exact InCall.leads ⟨update_self .., current, rfl, free, tq, pages, inuse⟩
    | false =>
      cases isFinal
      rw [if_neg (by simpa using some)]
      refine .step .kill (update_self ..) current rfl (InCall.ends ?_)
      exact ⟨update_self .., current, rfl, free, tq, pages, inuse⟩

/-! ## `sys_fork` -/

theorem InCall.forkInto (different : child ≠ self) (pages : kernel.pagesHead ≠ [])
    (call : InCall cpu slot self (.taskInit child) (tree.setState child .INIT) kernel) :
    Leads cpu slot self kernel .run (tree.forkInto self child) := by
  rcases List.exists_cons_of_ne_nil pages with ⟨page, rest, isList⟩
  rcases call with ⟨atPc, current, isTree, free, tq, nodup, inuse⟩
  refine .step .go atPc current rfl ?_
  refine .step .go (update_self ..) current
    (by simp [taskStep, allocPageForTask, allocPage, isList]; rfl) ?_
  refine .step .go (update_self ..) current rfl ?_
  refine .step .go (update_self ..) current rfl ?_
  refine .step .go (update_self ..) current rfl ?_
  refine .step .go (update_self ..) current rfl ?_
  refine InCall.leads ⟨update_self .., current, ?_, free, tq, ?_, ?_⟩
  · have isState : kernel.state = update tree.state child .INIT := congrArg Tasks.state isTree
    have isParent : kernel.parent = tree.parent := congrArg Tasks.parent isTree
    have isChilds : kernel.childs = tree.childs := congrArg Tasks.childs isTree
    simp [Kernel.tasks, Tasks.forkInto, Tasks.setState, Tasks.setChilds, Tasks.setParent, isState,
      isParent, isChilds]
  · simpa [update_of_ne different.symm] using nodup
  · intro other isOther
    have wasUsed := inuse other (by simpa [update_of_ne different.symm] using isOther)
    simp [update_apply, wasUsed]

/-- The scan of `alloc_task` under `tq`. -/
theorem InCall.allocFrom (different : child ≠ self) (isFree : tree.state child = .FREE)
    (first : ∀ other < child, tree.state other ≠ .FREE) (turns : Nat) :
    ∀ {index : Nat} {kernel : Kernel Cpu Page}, index + turns = child.val →
      kernel.pagesHead ≠ [] →
      InCall cpu slot self (.allocLock index) tree { kernel with tq := none } →
        Leads cpu slot self kernel .run (tree.forkInto self child) := by
  induction turns with
  | zero =>
    rintro index kernel rfl pages ⟨atPc, current, rfl, free, _, nodup, inuse⟩
    refine .step .go atPc current ((dif_pos child.isLt).trans (if_pos (congrFun free _))) ?_
    refine .step .go (update_self ..) current (if_pos isFree) ?_
    refine .step .go (update_self ..) current (if_pos (update_self ..)) ?_
    refine .step .go (update_self ..) current rfl (InCall.forkInto different pages ?_)
    exact ⟨update_self .., current, rfl, by simp [show kernel.lock = _ from free], rfl, nodup,
      inuse⟩
  | succ turns induction =>
    rintro index kernel isIndex pages ⟨atPc, current, rfl, free, _, nodup, inuse⟩
    have less : index < child.val := by omega
    have inRange : index < NPROC := Nat.lt_trans less child.isLt
    refine .step .go atPc current ((dif_pos inRange).trans (if_pos (congrFun free _))) ?_
    refine .step .go (update_self ..) current (if_neg (first ⟨index, inRange⟩ less)) ?_
    refine .step .go (update_self ..) current (if_pos (update_self ..)) ?_
    refine @induction (index + 1) _ (by omega) pages ?_
    exact ⟨update_self .., current, rfl, by simp [show kernel.lock = _ from free], rfl, nodup,
      inuse⟩

theorem InCall.fork (call : InCall cpu slot self .run tree kernel) (alive : tree.Alive self)
    (pages : kernel.pagesHead ≠ []) (forks : tree.fork self = some final) :
    Leads cpu slot self kernel .run final := by
  rcases Option.map_eq_some_iff.mp forks with ⟨child, found, rfl⟩
  rcases List.find?_eq_some_iff_getElem.mp found with ⟨isFree, place, inList, isChild, before⟩
  rcases call with ⟨atPc, current, isTree, free, tq, nodup, inuse⟩
  refine .step .fork atPc current rfl (.step .go (update_self ..) current (if_pos tq) ?_)
  have isFree : tree.state child = .FREE := of_decide_eq_true isFree
  refine InCall.allocFrom ?_ isFree ?_ child.val (Nat.zero_add _) pages
    ⟨update_self .., current, isTree, free, rfl, nodup, inuse⟩
  · rintro rfl
    exact alive.1 isFree
  · intro other less
    have isPlace : place = child.val := by simpa using congrArg Fin.val isChild
    have isLess : other.val < child.val := less
    simpa using before other.val (by omega)

end Tnix.Task.Kernel
