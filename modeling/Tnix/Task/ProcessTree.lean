import Tnix.Foundation.OwnedLists
import Tnix.Task.Kernel

/-! # The process tree

`sys_fork`, `sys_exit`, `kill` and `sys_wait` as whole operations on `state`,
`parent` and the lists of children. `sys_exit` hands the children of the task to
`task_queue[0]`; `kill` does not. -/

namespace Tnix.Task

open Function List

structure Tasks where
  state : Slot → TaskState
  parent : Slot → Option Slot
  childs : Slot → List Slot

namespace Tasks

section
variable (tasks : Tasks)

def setState (slot : Slot) (state : TaskState) : Tasks :=
  { tasks with state := update tasks.state slot state }

def setParent (slot parent : Slot) : Tasks :=
  { tasks with parent := update tasks.parent slot (some parent) }

def setChilds (slot : Slot) (childs : List Slot) : Tasks :=
  { tasks with childs := update tasks.childs slot childs }

end

def Alive (tasks : Tasks) (slot : Slot) : Prop :=
  tasks.state slot ≠ .FREE ∧ tasks.state slot ≠ .EXIT

instance (tasks : Tasks) (slot : Slot) : Decidable (tasks.Alive slot) :=
  inferInstanceAs (Decidable (_ ∧ _))

/-! ## Operations -/

def forkInto (tasks : Tasks) (self child : Slot) : Tasks :=
  let initialised := (tasks.setParent child self).setChilds child []
  let pushed := initialised.setChilds self (initialised.childs self ++ [child])
  pushed.setState child .READY

/-- `none` is the panic of `alloc_task` when no slot is free. -/
def fork (tasks : Tasks) (self : Slot) : Option Tasks :=
  ((List.finRange NPROC).find? fun slot => tasks.state slot = .FREE).map (tasks.forkInto self)

def handOver (tasks : Tasks) (self child : Slot) : Tasks :=
  let removed := (tasks.setParent child 0).setChilds self ((tasks.childs self).erase child)
  removed.setChilds 0 (removed.childs 0 ++ [child])

/-- The loop of `sys_exit`, which saves the next child before it hands one over. -/
def handOverFrom (self : Slot) : Nat → Option Slot → Tasks → Option Tasks
  | _, none, tasks => some tasks
  | 0, some _, _ => none
  | turns + 1, some child, tasks =>
    handOverFrom self turns (nextChild (tasks.childs self) child) (tasks.handOver self child)

/-- There is a turn for each child. Only `task_queue[0]` can need more: two of its children
go round its own list for ever. -/
def exit (tasks : Tasks) (self : Slot) : Option Tasks :=
  (handOverFrom self (tasks.childs self).length (tasks.childs self).head? tasks).map
    (·.setState self .EXIT)

def kill (tasks : Tasks) (self : Slot) : Tasks := tasks.setState self .EXIT

def reap (tasks : Tasks) (self child : Slot) : Tasks :=
  (tasks.setChilds self ((tasks.childs self).erase child)).setState child .FREE

/-- `none` while no child has exited. `copied` is false when `copy_to_user` kills the
task, after the child has left the list. -/
def wait (tasks : Tasks) (self : Slot) (copied : Bool) : Option Tasks :=
  if tasks.childs self = [] then some tasks
  else do
    let child ← (tasks.childs self).find? fun child => tasks.state child = .EXIT
    return if copied then tasks.reap self child
      else (tasks.setChilds self ((tasks.childs self).erase child)).kill self

inductive Operation
  | fork (self : Slot)
  | exit (self : Slot)
  | kill (self : Slot)
  | wait (self : Slot) (copied : Bool)

def Operation.self : Operation → Slot
  | .fork self | .exit self | .kill self | .wait self _ => self

def perform (tasks : Tasks) : Operation → Option Tasks
  | .fork self => tasks.fork self
  | .exit self => tasks.exit self
  | .kill self => some (tasks.kill self)
  | .wait self copied => tasks.wait self copied

def boot : Tasks where
  state slot := if slot = 0 then .READY else .FREE
  parent _ := none
  childs _ := []

def machine : Machine Tasks Operation where
  Initial tasks := tasks = boot
  step tasks operation :=
    if tasks.Alive operation.self then tasks.perform operation else none

/-- Every task but the first is on one list of children, that of its parent, and the
parent has not exited. -/
def Tree (tasks : Tasks) : Prop :=
  ∀ slot, slot ≠ 0 → tasks.state slot ≠ .FREE → ∃ parent, tasks.parent slot = some parent ∧
    tasks.Alive parent ∧ (tasks.childs parent).count slot = 1 ∧
    ∀ other, slot ∈ tasks.childs other → other = parent

/-- Calls of `sys_wait` by the parent free the slot. -/
def Reapable (tasks : Tasks) (slot : Slot) : Prop :=
  ∃ parent count next, tasks.parent slot = some parent ∧
    machine.run tasks (List.replicate count (.wait parent true)) = some next ∧
    next.state slot = .FREE

/-- No task is killed while it has children, or in `sys_wait` while it reaps, and
`task_queue[0]` does not exit with one child. -/
def KillsChildless (tasks : Tasks) : Operation → Prop
  | .kill self => tasks.childs self = []
  | .wait _ copied => copied = true
  | .exit self => self = 0 → (tasks.childs self).length ≠ 1
  | .fork _ => True

instance (tasks : Tasks) : ∀ operation, Decidable (tasks.KillsChildless operation)
  | .kill _ => inferInstanceAs (Decidable (_ = _))
  | .wait _ _ => inferInstanceAs (Decidable (_ = _))
  | .exit _ => inferInstanceAs (Decidable (_ → _))
  | .fork _ => .isTrue trivial

/-! ## The invariant -/

structure Sound (tasks : Tasks) : Prop where
  member : ∀ parent child, child ∈ tasks.childs parent →
    tasks.parent child = some parent ∧ tasks.state child ≠ .FREE ∧ child ≠ 0
  nodup : ∀ parent, (tasks.childs parent).Nodup
  listed : ∀ slot, slot ≠ 0 → tasks.state slot ≠ .FREE →
    ∃ parent, slot ∈ tasks.childs parent ∧ tasks.Alive parent
  -- no task is its own ancestor
  ranked : ∃ rank : Slot → Nat, rank 0 = 0 ∧
    ∀ parent child, child ∈ tasks.childs parent → rank parent < rank child

variable {tasks next : Tasks} {self child : Slot}

namespace Sound

section
variable (sound : tasks.Sound)
include sound

theorem parent_unique {left right : Slot} (inLeft : child ∈ tasks.childs left)
    (inRight : child ∈ tasks.childs right) :
    left = right :=
  Option.some.inj ((sound.member left child inLeft).1.symm.trans
    (sound.member right child inRight).1)

theorem tree : tasks.Tree := by
  intro slot notFirst notFree
  rcases sound.listed slot notFirst notFree with ⟨parent, member, alive⟩
  refine ⟨parent, (sound.member parent slot member).1, alive, ?_, ?_⟩
  · exact count_eq_one_of_mem (sound.nodup parent) member
  · exact fun other inOther => sound.parent_unique inOther member

theorem parent_alive {parent : Slot} (member : child ∈ tasks.childs parent) :
    tasks.Alive parent := by
  rcases sound.member parent child member with ⟨_, notFree, notFirst⟩
  rcases sound.listed child notFirst notFree with ⟨other, inOther, alive⟩
  rwa [sound.parent_unique member inOther]

theorem first_alive (alive : tasks.Alive self) : tasks.Alive 0 := by
  rcases sound.ranked with ⟨rank, _, increases⟩
  induction height : rank self using Nat.strong_induction_on generalizing self with
  | _ height induction =>
    by_cases first : self = 0
    · rwa [first] at alive
    · rcases sound.listed self first alive.1 with ⟨parent, member, parentAlive⟩
      exact induction (rank parent) (height ▸ increases parent self member) parentAlive rfl

end

theorem boot : boot.Sound where
  member := nofun
  nodup _ := nodup_nil
  listed := by
    intro slot notFirst notFree
    simp [Tasks.boot, notFirst] at notFree
  ranked := ⟨fun _ => 0, rfl, nofun⟩

theorem childless (sound : tasks.Sound) (notAlive : ¬ tasks.Alive self) :
    tasks.childs self = [] :=
  eq_nil_iff_forall_not_mem.mpr fun _ member => notAlive (sound.parent_alive member)

end Sound

/-! ## The lists of children after an operation -/

theorem forkInto_childs (childless : tasks.childs child = []) :
    (tasks.forkInto self child).childs =
      update tasks.childs self (tasks.childs self ++ [child]) := by
  simp only [forkInto, setState, setChilds, setParent, ← childless, update_eq_self]

theorem handOver_childs_self (notFirst : self ≠ 0) :
    (tasks.handOver self child).childs self = (tasks.childs self).erase child := by
  simp only [handOver, setChilds, setParent, update_of_ne notFirst, update_self]

theorem nextChild_head (child : Slot) (rest : List Slot) :
    nextChild (child :: rest) child = rest.head? := by
  simp [nextChild]

/-- The children of `task_queue[0]` stay behind the saved one. -/
theorem handOverFrom_endless {first second : Slot} {rest : List Slot}
    (isList : tasks.childs 0 = first :: second :: rest) (turns : Nat) :
    handOverFrom 0 turns (some first) tasks = none := by
  induction turns generalizing tasks first second rest with
  | zero => rfl
  | succ turns induction =>
    have moved : (tasks.handOver 0 first).childs 0 = second :: (rest ++ [first]) := by
      simp [handOver, setChilds, setParent, isList]
    rw [handOverFrom, isList, nextChild_head, head?_cons]
    rcases rest with _ | ⟨third, rest⟩
    · exact induction moved
    · exact induction moved

theorem reap_childs (parent : Slot) : (tasks.reap self child).childs parent =
    if parent = self then (tasks.childs self).erase child else tasks.childs parent := by
  simp only [reap, setState, setChilds, update_apply]

theorem reap_state {slot : Slot} (notChild : slot ≠ child) :
    (tasks.reap self child).state slot = tasks.state slot :=
  update_of_ne notChild _ _

namespace Sound

section
variable (sound : tasks.Sound)
include sound

theorem owned : OwnedLists tasks.childs := ⟨sound.nodup, fun _ _ _ => sound.parent_unique⟩

/-! ## One lemma per operation -/

section
variable (alive : tasks.Alive self)
include alive

theorem forkInto (isFree : tasks.state child = .FREE) : (tasks.forkInto self child).Sound := by
  have different : self ≠ child := by
    rintro rfl
    exact alive.1 isFree
  have notFirst : child ≠ 0 := by
    rintro rfl
    exact (sound.first_alive alive).1 isFree
  have unlisted : ∀ parent, child ∉ tasks.childs parent :=
    fun parent member => (sound.member parent child member).2.1 isFree
  have childless := sound.childless fun childAlive : tasks.Alive child => childAlive.1 isFree
  have isChilds := @forkInto_childs tasks self child childless
  have mem_childs : ∀ parent other, other ∈ (tasks.forkInto self child).childs parent ↔
      other ∈ tasks.childs parent ∨ parent = self ∧ other = child := by
    rw [isChilds]
    exact fun _ _ => OwnedLists.mem_push
  have isState : ∀ slot, slot ≠ child →
      (tasks.forkInto self child).state slot = tasks.state slot :=
    fun slot notChild => update_of_ne notChild _ _
  have isParent : ∀ slot, slot ≠ child →
      (tasks.forkInto self child).parent slot = tasks.parent slot :=
    fun slot notChild => update_of_ne notChild _ _
  refine { member := ?_, nodup := ?_, listed := ?_, ranked := ?_ }
  · intro parent other member
    rcases (mem_childs parent other).mp member with member | ⟨rfl, rfl⟩
    · have notChild : other ≠ child := fun same => unlisted parent (same ▸ member)
      rw [isState other notChild, isParent other notChild]
      exact sound.member parent other member
    · refine ⟨update_self _ _ _, ?_, notFirst⟩
      simp [Tasks.forkInto, setState]
  · rw [isChilds]
    exact (sound.owned.push unlisted).nodup
  · intro slot slotNotFirst notFree
    by_cases isChild : slot = child
    · refine ⟨self, (mem_childs self slot).mpr (.inr ⟨rfl, isChild⟩), ?_⟩
      rwa [Alive, isState self different]
    · rw [isState slot isChild] at notFree
      rcases sound.listed slot slotNotFirst notFree with ⟨parent, member, parentAlive⟩
      have notChild : parent ≠ child := by
        rintro rfl
        exact parentAlive.1 isFree
      refine ⟨parent, (mem_childs parent slot).mpr (.inl member), ?_⟩
      rwa [Alive, isState parent notChild]
  · rcases sound.ranked with ⟨rank, first, increases⟩
    refine ⟨update rank child (rank self + 1), ?_, ?_⟩
    · rw [update_of_ne notFirst.symm, first]
    · intro parent other member
      rcases (mem_childs parent other).mp member with member | ⟨rfl, rfl⟩
      · have notParent : parent ≠ child := by
          intro same
          rw [same, childless] at member
          cases member
        have notChild : other ≠ child := fun same => unlisted parent (same ▸ member)
        rw [update_of_ne notParent, update_of_ne notChild]
        exact increases parent other member
      · rw [update_self, update_of_ne different]
        exact Nat.lt_succ_self _

theorem fork (forked : tasks.fork self = some next) : next.Sound := by
  rcases Option.map_eq_some_iff.mp forked with ⟨child, found, rfl⟩
  exact sound.forkInto alive (by simpa using find?_some found)

theorem handOver (member : child ∈ tasks.childs self) : (tasks.handOver self child).Sound := by
  have erased {parent other : Slot} := @OwnedLists.mem_erase _ _ _ self parent other child _ _
    sound.owned member
  have mem_childs {parent other : Slot} : other ∈ (tasks.handOver self child).childs parent ↔
      (other ∈ tasks.childs parent ∧ other ≠ child) ∨ parent = 0 ∧ other = child :=
    OwnedLists.mem_push.trans (or_congr_left erased)
  refine { member := ?_, nodup := ?_, listed := ?_, ranked := ?_ }
  · intro parent other inParent
    rcases mem_childs.mp inParent with ⟨inParent, different⟩ | ⟨rfl, rfl⟩
    · rcases sound.member parent other inParent with ⟨isParent, rest⟩
      exact ⟨(update_of_ne different _ _).trans isParent, rest⟩
    · exact ⟨update_self _ _ _, (sound.member self other member).2⟩
  · exact (sound.owned.erase.push fun _ inErased => (erased.mp inErased).2 rfl).nodup
  · intro slot slotNotFirst notFree
    by_cases isChild : slot = child
    · exact ⟨0, mem_childs.mpr (.inr ⟨rfl, isChild⟩), sound.first_alive alive⟩
    · rcases sound.listed slot slotNotFirst notFree with ⟨parent, inParent, parentAlive⟩
      exact ⟨parent, mem_childs.mpr (.inl ⟨inParent, isChild⟩), parentAlive⟩
  · rcases sound.ranked with ⟨rank, first, increases⟩
    refine ⟨rank, first, ?_⟩
    intro parent other inParent
    rcases mem_childs.mp inParent with ⟨inParent, _⟩ | ⟨rfl, rfl⟩
    · exact increases parent other inParent
    · rw [first]
      exact Nat.lt_of_le_of_lt (Nat.zero_le _) (increases self other member)

theorem handOverFrom (notFirst : self ≠ 0) {list : List Slot} (isList : tasks.childs self = list) :
    ∃ handed, Tasks.handOverFrom self list.length list.head? tasks = some handed ∧ handed.Sound ∧
      handed.Alive self ∧ handed.childs self = [] := by
  induction list generalizing tasks with
  | nil => exact ⟨tasks, rfl, sound, alive, isList⟩
  | cons child rest induction =>
    have member : child ∈ tasks.childs self := isList ▸ mem_cons_self
    have left : (tasks.handOver self child).childs self = rest := by
      rw [handOver_childs_self notFirst, isList, erase_cons_head]
    rw [length_cons, head?_cons, Tasks.handOverFrom, isList, nextChild_head]
    exact induction (sound.handOver alive member) alive left

theorem kill (childless : tasks.childs self = []) : (tasks.kill self).Sound := by
  have isState : ∀ slot, slot ≠ self → (tasks.kill self).state slot = tasks.state slot :=
    fun slot notSelf => update_of_ne notSelf _ _
  refine { member := ?_, nodup := sound.nodup, listed := ?_, ranked := sound.ranked }
  · intro parent child member
    rcases sound.member parent child member with ⟨isParent, notFree, notFirst⟩
    refine ⟨isParent, ?_, notFirst⟩
    by_cases isSelf : child = self
    · simp [Tasks.kill, setState, isSelf]
    · rwa [isState child isSelf]
  · intro slot notFirst notFree
    have wasNotFree : tasks.state slot ≠ .FREE := by
      by_cases isSelf : slot = self
      · exact isSelf ▸ alive.1
      · rwa [isState slot isSelf] at notFree
    rcases sound.listed slot notFirst wasNotFree with ⟨parent, member, parentAlive⟩
    have notSelf : parent ≠ self := by
      rintro rfl
      simp [childless] at member
    refine ⟨parent, member, ?_⟩
    rwa [Alive, isState parent notSelf]

theorem exit (notAlone : self = 0 → (tasks.childs self).length ≠ 1)
    (exited : tasks.exit self = some next) : next.Sound := by
  rcases Option.map_eq_some_iff.mp exited with ⟨handed, ended, rfl⟩
  by_cases first : self = 0
  · subst first
    rcases isList : tasks.childs 0 with _ | ⟨child, _ | ⟨second, rest⟩⟩
    · rw [isList] at ended
      cases ended
      exact sound.kill alive isList
    · exact absurd (congrArg length isList) (notAlone rfl)
    · rw [isList, head?_cons, handOverFrom_endless isList] at ended
      cases ended
  · rcases sound.handOverFrom alive first rfl with ⟨after, ran, handed, stillAlive, childless⟩
    cases ended.symm.trans ran
    exact handed.kill stillAlive childless

end

theorem reap (member : child ∈ tasks.childs self) (zombie : tasks.state child = .EXIT) :
    (tasks.reap self child).Sound := by
  have mem_childs : ∀ parent other, other ∈ (tasks.reap self child).childs parent ↔
      other ∈ tasks.childs parent ∧ other ≠ child :=
    fun _ _ => sound.owned.mem_erase member
  have isState := @reap_state tasks self child
  refine { member := ?_, nodup := ?_, listed := ?_, ranked := ?_ }
  · intro parent other inParent
    rcases (mem_childs parent other).mp inParent with ⟨inParent, notChild⟩
    rw [isState notChild]
    exact sound.member parent other inParent
  · exact sound.owned.erase.nodup
  · intro slot notFirst notFree
    have notChild : slot ≠ child := by
      rintro rfl
      exact notFree (update_self _ _ _)
    rw [isState notChild] at notFree
    rcases sound.listed slot notFirst notFree with ⟨parent, inParent, parentAlive⟩
    have parentNotChild : parent ≠ child := by
      rintro rfl
      exact parentAlive.2 zombie
    refine ⟨parent, (mem_childs parent slot).mpr ⟨inParent, notChild⟩, ?_⟩
    rwa [Alive, isState parentNotChild]
  · rcases sound.ranked with ⟨rank, first, increases⟩
    refine ⟨rank, first, ?_⟩
    intro parent other inParent
    exact increases parent other ((mem_childs parent other).mp inParent).1

theorem wait (waited : tasks.wait self true = some next) :
    next.Sound := by
  unfold Tasks.wait at waited
  split at waited
  case isTrue => exact Option.some.inj waited ▸ sound
  case isFalse =>
    rcases Option.bind_eq_some_iff.mp waited with ⟨child, found, isNext⟩
    cases isNext
    exact sound.reap (mem_of_find?_eq_some found) (by simpa using find?_some found)

theorem step {operation : Operation} (allowed : tasks.KillsChildless operation)
    (stepped : machine.step tasks operation = some next) : next.Sound := by
  simp only [machine, Option.ite_none_right_eq_some] at stepped
  rcases stepped with ⟨alive, performed⟩
  cases operation with
  | fork self => exact sound.fork alive performed
  | exit self => exact sound.exit alive allowed performed
  | kill self => exact Option.some.inj performed ▸ sound.kill alive allowed
  | wait self copied =>
    rcases allowed with rfl
    exact sound.wait performed

theorem reapable {parent slot : Slot} (member : slot ∈ tasks.childs parent)
    (zombie : tasks.state slot = .EXIT) :
    ∃ count next, machine.run tasks (List.replicate count (.wait parent true)) = some next ∧
      next.state slot = .FREE := by
  induction size : (tasks.childs parent).length generalizing tasks with
  | zero => simp [length_eq_zero_iff.mp size] at member
  | succ size induction =>
    have alive := sound.parent_alive member
    have hasChilds : tasks.childs parent ≠ [] := ne_nil_of_mem member
    have someZombie : ((tasks.childs parent).find? fun child =>
        tasks.state child = .EXIT).isSome := by
      rw [find?_isSome]
      exact ⟨slot, member, by simpa using zombie⟩
    rcases Option.isSome_iff_exists.mp someZombie with ⟨child, found⟩
    have inList := mem_of_find?_eq_some found
    have zombieChild : tasks.state child = .EXIT := by simpa using find?_some found
    have stepped : machine.step tasks (.wait parent true) = some (tasks.reap parent child) := by
      simp only [machine, Operation.self, alive, if_true, perform, Tasks.wait, hasChilds,
        if_false, found, Option.bind_eq_bind, Option.bind_some, Option.pure_def]
    have ran : ∀ count, machine.run tasks (List.replicate (count + 1) (.wait parent true)) =
        machine.run (tasks.reap parent child) (List.replicate count (.wait parent true)) := by
      intro count
      rw [replicate_succ, Machine.run, stepped]
      rfl
    by_cases same : slot = child
    · refine ⟨1, tasks.reap parent child, ran 0, ?_⟩
      rw [same]
      exact update_self _ _ _
    · have isChilds : (tasks.reap parent child).childs parent =
          (tasks.childs parent).erase child := by
        rw [reap_childs, if_pos rfl]
      rcases induction (sound.reap inList zombieChild)
        (by rw [isChilds]; exact (mem_erase_of_ne same).mpr member)
        (by rw [reap_state same]; exact zombie)
        (by rw [isChilds, length_erase_of_mem inList, size]; rfl) with
        ⟨count, next, rest, isFree⟩
      exact ⟨count + 1, next, (ran count).trans rest, isFree⟩

end
end Sound

/-- As long as `kill` meets no children, the processes are a tree, and every exited
task can be reaped. -/
theorem tree_of_reaches (reached : machine.Reaches KillsChildless tasks) :
    tasks.Tree ∧ ∀ slot, slot ≠ 0 → tasks.state slot = .EXIT → tasks.Reapable slot := by
  have sound : tasks.Sound := by
    refine reached.invariant Sound ?_ ?_
    · rintro state rfl
      exact Sound.boot
    · intro state operation next sound allowed stepped
      exact sound.step allowed stepped
  refine ⟨sound.tree, ?_⟩
  intro slot notFirst zombie
  rcases sound.listed slot notFirst (by rw [zombie]; nofun) with ⟨parent, member, _⟩
  rcases sound.reapable member zombie with ⟨count, next, ran, isFree⟩
  exact ⟨parent, count, next, (sound.member parent slot member).1, ran, isFree⟩

def orphanRun : List Operation := [.fork 0, .fork 1, .exit 1]

theorem tree_of_orphanRun :
    ∃ tasks, machine.run boot orphanRun = some tasks ∧ tasks.childs 0 = [1, 2] ∧
      tasks.state 1 = .EXIT ∧ tasks.Tree ∧
      ∀ slot, slot ≠ 0 → tasks.state slot = .EXIT → tasks.Reapable slot := by
  rcases (⟨_, rfl, rfl, rfl⟩ : ∃ tasks, machine.run boot orphanRun = some tasks ∧
    tasks.childs 0 = [1, 2] ∧ tasks.state 1 = .EXIT) with ⟨tasks, ran, isChilds, zombie⟩
  refine ⟨tasks, ran, isChilds, zombie, tree_of_reaches ?_⟩
  exact Machine.Reaches.run (.initial rfl) (by decide) ran

/-- The child is killed instead: its own child keeps the exited parent. -/
theorem killed_parent_keeps_children :
    ∃ tasks, machine.run boot [.fork 0, .fork 1, .kill 1] = some tasks ∧
      tasks.parent 2 = some 1 ∧ tasks.state 2 = .READY ∧ tasks.state 1 = .EXIT ∧
      ¬ tasks.Tree := by
  rcases (⟨_, rfl, rfl, rfl, rfl⟩ : ∃ tasks,
    machine.run boot [.fork 0, .fork 1, .kill 1] = some tasks ∧
      tasks.parent 2 = some 1 ∧ tasks.state 2 = .READY ∧ tasks.state 1 = .EXIT) with
    ⟨tasks, ran, isParent, isReady, zombie⟩
  refine ⟨tasks, ran, isParent, isReady, zombie, ?_⟩
  intro tree
  rcases tree 2 (by decide) (by rw [isReady]; nofun) with ⟨parent, isParent', alive, _⟩
  rcases Option.some.inj (isParent.symm.trans isParent') with rfl
  exact alive.2 zombie

/-! ## Descent -/

def IsChild (tasks : Tasks) (parent child : Slot) : Prop := child ∈ tasks.childs parent

open Relation

/-- As long as `kill` meets no children, every task descends from the first one and none from
itself. -/
theorem descends_of_reaches (reached : machine.Reaches KillsChildless tasks) :
    (∀ slot, tasks.state slot ≠ .FREE → ReflTransGen tasks.IsChild 0 slot) ∧
      ∀ slot, ¬ TransGen tasks.IsChild slot slot := by
  have sound : tasks.Sound := reached.invariant Sound (by rintro _ rfl; exact Sound.boot)
    fun _ _ _ sound allowed stepped => sound.step allowed stepped
  rcases sound.ranked with ⟨rank, _, increases⟩
  refine ⟨?_, ?_⟩
  · intro slot used
    induction height : rank slot using Nat.strong_induction_on generalizing slot with
    | _ height induction =>
      by_cases first : slot = 0
      · rw [first]
      · rcases sound.listed slot first used with ⟨parent, member, alive⟩
        have lower := height ▸ increases parent slot member
        exact (induction _ lower parent alive.1 rfl).tail member
  · intro slot cycle
    have rises : TransGen (· < ·) (rank slot) (rank slot) := cycle.lift rank increases
    rw [transGen_eq_self] at rises
    exact lt_irrefl _ rises

theorem descends_of_orphanRun : ∃ tasks, machine.run boot orphanRun = some tasks ∧
    tasks.parent 2 = some 0 ∧ ReflTransGen tasks.IsChild 0 2 := by
  rcases (⟨_, rfl, rfl, rfl⟩ : ∃ tasks, machine.run boot orphanRun = some tasks ∧
    tasks.parent 2 = some 0 ∧ tasks.state 2 = .READY) with ⟨tasks, ran, isParent, isReady⟩
  have reached : machine.Reaches KillsChildless tasks := .run (.initial rfl) (by decide) ran
  exact ⟨tasks, ran, isParent, (descends_of_reaches reached).1 2 (by simp [isReady])⟩

end Tasks
end Tnix.Task
