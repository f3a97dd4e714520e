import Tnix.Task.KernelSteps

/-! # A task slot is never run or recycled while it is running

The rest of the steps, those of the lists of children and of the scheduler, and
the invariant over whole runs. -/

namespace Tnix.Task.Kernel

open Function
variable {Cpu Page : Type} {kernel next : Kernel Cpu Page}

namespace Sound

/-! ## Steps on data the invariant does not read -/

theorem congr (sound : kernel.Sound) (state : next.state = kernel.state)
    (lock : next.lock = kernel.lock) (childs : next.childs = kernel.childs)
    (pc : next.pc = kernel.pc) (curTask : next.curTask = kernel.curTask) : next.Sound := by
  rcases kernel with ⟨⟩
  rcases next with ⟨⟩
  dsimp only at state lock childs pc curTask
  subst state lock childs pc curTask
  exact ⟨sound.current, sound.locks, sound.states, sound.occupied, sound.forks, sound.reaps,
    sound.lists, sound.saved, sound.hidden, sound.free, sound.nodup, sound.disjoint⟩

variable [DecidableEq Cpu]

theorem inherit_congr [DecidableEq Page] (sound : kernel.Sound) {cpu : Cpu} {slot : Slot}
    {pc after : TaskPc} (atPc : kernel.pc cpu = .task slot pc)
    (same : next.state = kernel.state ∧ next.lock = kernel.lock ∧
      next.childs = kernel.childs ∧ next.pc = kernel.pc ∧ next.curTask = kernel.curTask)
    (owns : after.OwnsLock → pc.OwnsLock) (visits : after.visits = none)
    (ownState : after.ownState = pc.ownState) (forks : after.forks = pc.forks)
    (reaps : after.reaps = none) (hidden : ∀ child, after.hidden = some child →
      pc.hidden = some child) (lists : ∀ child, ¬ after.Lists child) (saved : after.SavedOk) :
    (next.setPc cpu (.task slot after)).Sound := by
  rcases same with ⟨state, lock, childs, pcs, curTask⟩
  have moved := sound.congr state lock childs pcs curTask
  exact moved.inherit (pcs ▸ atPc) owns (by simp [visits]) ownState (by simp [forks])
    (by simp [reaps]) hidden (fun child isListed => absurd isListed (lists child)) saved

end Sound

variable {slot : Slot} {cpu : Cpu}

theorem allocPageForTask_same [DecidableEq Page] {page : Page}
    (allocates : kernel.allocPageForTask slot = some (page, next)) :
    next.state = kernel.state ∧ next.lock = kernel.lock ∧ next.childs = kernel.childs ∧
      next.pc = kernel.pc ∧ next.curTask = kernel.curTask := by
  unfold allocPageForTask allocPage at allocates
  split at allocates
  case h_1 => cases allocates
  case h_2 first rest list =>
    cases allocates
    exact ⟨rfl, rfl, rfl, rfl, rfl⟩

namespace Sound

variable [DecidableEq Cpu]
variable {cpu : Cpu} {slot self child : Slot} {pc : TaskPc}

theorem pages [DecidableEq Page] (sound : kernel.Sound) {after : TaskPc} (atPc : kernel.pc cpu =
    .task slot pc) (pages : Pages self kernel pc next after) :
    (next.setPc cpu (.task slot after)).Sound := by
  cases pages with
  | alloc | free | clean =>
    exact sound.inherit_congr atPc ⟨rfl, rfl, rfl, rfl, rfl⟩ nofun rfl rfl rfl rfl nofun
      (fun _ => id) trivial
  | allocForTask place allocates =>
    have same := allocPageForTask_same allocates
    rcases place with ⟨rfl, _⟩ | rfl | rfl
    · exact sound.inherit_congr atPc same nofun rfl rfl rfl rfl nofun (fun _ => id) trivial
    · exact sound.inherit_congr atPc same nofun rfl rfl rfl rfl (fun _ => id) (fun _ => id)
        trivial
    · exact sound.inherit_congr atPc same nofun rfl rfl rfl rfl (fun _ => id) (fun _ => id)
        trivial
  | stack allocates =>
    rcases allocPageForTask_same allocates with ⟨state, lock, childs, pcs, curTask⟩
    exact sound.inherit_congr atPc ⟨state, lock, childs, pcs, curTask⟩ nofun rfl rfl rfl rfl
      (fun _ => id) (fun _ => id) trivial

/-! ## Lists of children -/

theorem expects_of_hidden {pc : CpuPc} (hidden : pc.hidden = some slot) :
    pc.Expects slot .INIT ∨ pc.Expects slot .EXIT := by
  cases pc with
  | task self task =>
    have isHidden : task.hidden = some slot := hidden
    cases task with
    | allocPut | allocPutTq | taskInit | stackPage | laterPages | forkPush =>
      exact .inl (.inr (.inl ⟨isHidden, rfl⟩))
    | waitCopy | waitFree => exact .inr (.inr (.inr ⟨isHidden, rfl⟩))
    | _ => cases isHidden
  | _ => cases hidden

section
variable (sound : kernel.Sound)
include sound

omit [DecidableEq Cpu]

theorem alone {other : Cpu} (atPc : kernel.pc cpu = .task slot pc) (different : other ≠ cpu) :
    ¬ kernel.Executes other slot := by
  rintro ⟨task, there⟩
  exact different (sound.occupied other cpu slot (by simp [Occupies, there])
    (by simp [Occupies, atPc]))

theorem owned : OwnedLists kernel.childs := ⟨sound.nodup, sound.disjoint⟩

theorem mem_handOver_childs {index grandchild : Slot} (listed : child ∈ kernel.childs self) :
    grandchild ∈ (kernel.handOver self child).childs index ↔
      (grandchild ∈ kernel.childs index ∧ grandchild ≠ child) ∨ index = 0 ∧ grandchild = child :=
  OwnedLists.mem_push.trans (or_congr_left (sound.owned.mem_erase listed))

theorem owned_handOver_childs (listed : child ∈ kernel.childs self) :
    OwnedLists (kernel.handOver self child).childs :=
  sound.owned.erase.push fun _ member => ((sound.owned.mem_erase listed).mp member).2 rfl

variable [DecidableEq Cpu]

theorem shrinkStep {after : TaskPc} (atPc : kernel.pc cpu = .task slot pc)
    (pcs : next.pc = update kernel.pc cpu (.task slot after))
    (same : next.state = kernel.state ∧ next.curTask = kernel.curTask ∧ next.lock = kernel.lock)
    (shrinks : ∀ index, (next.childs index).Sublist (kernel.childs index))
    (childs : ∀ other index, other ≠ cpu → kernel.Executes other index →
      next.childs index = kernel.childs index)
    (holds : ∀ index, ¬ (CpuPc.task slot after).Holds index)
    (ownState : after.ownState = pc.ownState) (forks : after.forks = pc.forks)
    (reaps : ∀ child, after.reaps = some child →
      kernel.state child = .EXIT ∧ ∀ other, other ≠ cpu → (kernel.pc other).reaps ≠ some child)
    (hidden : ∀ child, after.hidden = some child → next.Unlisted child)
    (lists : ∀ child, ¬ after.Lists child) (saved : after.SavedOk) : next.Sound := by
  have unlisted : ∀ index, kernel.Unlisted index → next.Unlisted index :=
    fun index isUnlisted parent member => isUnlisted parent ((shrinks parent).subset member)
  refine sound.listStep
    { atPc := atPc, pcs := pcs, same := ⟨same.1, same.2.1⟩, lock := ?_, childs := ?_,
      unlisted := ?_, locks := fun index held => absurd held (holds index),
      ownState := ownState, forks := by simp [forks], reaps := reaps, hidden := hidden,
      free := ?_, lists := fun child isListed => absurd isListed (lists child),
      saved := saved, nodup := (sound.owned.of_sublist shrinks).nodup,
      disjoint := (sound.owned.of_sublist shrinks).unique }
  · intro other index _ held
    rwa [same.2.2]
  · intro other index different executes child member
    rwa [childs other index different executes]
  · exact fun other index _ isHidden => unlisted index (sound.hidden other index isHidden)
  · exact fun index isFree => unlisted index (sound.free index isFree)

theorem taskInit (atPc : kernel.pc cpu = .task slot (.taskInit child)) :
    ((((kernel.setParent child self).setChilds child []).setPageHead child []).setPc cpu
      (.task slot (.stackPage child))).Sound := by
  have shrinks : ∀ index, (update kernel.childs child [] index).Sublist
      (kernel.childs index) :=
    OwnedLists.sublist_update (List.nil_sublist _)
  refine sound.shrinkStep atPc rfl ⟨rfl, rfl, rfl⟩ shrinks ?_ ?_ rfl rfl nofun ?_
    (fun _ => id) trivial
  · rintro other index different ⟨task, there⟩
    have notChild : index ≠ child := by
      rintro rfl
      refine sound.not_expects_of_forks atPc rfl different task.ownState ?_
      rw [there]
      exact .inl ⟨rfl, rfl⟩
    simp [notChild]
  · simp [CpuPc.Holds, TaskPc.OwnsLock, TaskPc.visits]
  · intro index isHidden parent member
    refine sound.hidden cpu index ?_ parent ((shrinks parent).subset member)
    rw [atPc]
    exact isHidden

theorem waitRemove (atPc : kernel.pc cpu = .task slot (.waitRemove child))
    (current : kernel.curTask cpu = some self) :
    ((kernel.setChilds self ((kernel.childs self).erase child)).setPc cpu
      (.task slot (.waitCopy child))).Sound := by
  rcases sound.self_eq atPc current with rfl
  have listed := sound.lists cpu self _ child atPc rfl
  have shrinks : ∀ index, (update kernel.childs self
      ((kernel.childs self).erase child) index).Sublist (kernel.childs index) :=
    OwnedLists.sublist_update List.erase_sublist
  refine sound.shrinkStep atPc rfl ⟨rfl, rfl, rfl⟩ shrinks ?_ ?_ rfl rfl ?_ ?_
    (fun _ => id) trivial
  · intro other index different executes
    have notSelf : index ≠ self := by
      rintro rfl
      exact sound.alone atPc different executes
    simp [notSelf]
  · simp [CpuPc.Holds, TaskPc.OwnsLock, TaskPc.visits]
  · rintro reaped ⟨⟩
    refine ⟨sound.states cpu child .EXIT ?_, fun other different => ?_⟩
    · rw [atPc]
      exact .inr (.inr ⟨rfl, rfl⟩)
    · exact sound.not_reaped_of_listed atPc listed different
  · rintro hidden ⟨⟩ parent member
    exact ((sound.owned.mem_erase listed).mp member).2 rfl

theorem forkPush (atPc : kernel.pc cpu = .task slot (.forkPush child))
    (current : kernel.curTask cpu = some self) :
    ((kernel.setChilds self (kernel.childs self ++ [child])).setPc cpu
      (.task slot (.forkContext child))).Sound := by
  rcases sound.self_eq atPc current with rfl
  have fresh : kernel.Unlisted child := sound.hidden cpu child (by rw [atPc]; rfl)
  have isInit := sound.states cpu child .INIT (by
    rw [atPc]
    exact .inr (.inl ⟨rfl, rfl⟩))
  have owned := @OwnedLists.push _ _ _ self child _ sound.owned fresh
  have unlisted : ∀ index, kernel.Unlisted index → index ≠ child →
      ∀ parent, index ∉ update kernel.childs self (kernel.childs self ++ [child])
        parent := by
    intro index isUnlisted notChild parent inList
    rcases OwnedLists.mem_push.mp inList with there | ⟨_, isChild⟩
    · exact isUnlisted parent there
    · exact notChild isChild
  refine sound.listStep
    { atPc := atPc, pcs := rfl, same := ⟨rfl, rfl⟩, lock := fun _ _ _ => id, childs := ?_,
      unlisted := ?_, locks := ?_, ownState := rfl, forks := fun _ => id, reaps := nofun,
      hidden := nofun, free := ?_, lists := nofun, saved := trivial, nodup := owned.nodup,
      disjoint := owned.unique }
  · rintro index (⟨_, owns⟩ | visits)
    · exact absurd owns id
    · cases visits
  · exact fun other index _ _ grandchild there => OwnedLists.mem_push.mpr (.inl there)
  · intro other index different isHidden
    refine unlisted index (sound.hidden other index isHidden) ?_
    rintro rfl
    rcases expects_of_hidden isHidden with expects | expects
    · exact sound.not_expects_of_forks atPc rfl different _ expects
    · exact sound.not_expects_of_forks atPc rfl different _ expects
  · intro index isFree
    refine unlisted index (sound.free index isFree) ?_
    rintro rfl
    simp [isInit] at isFree

theorem exitMove {saved : Option Slot} (atPc : kernel.pc cpu = .task slot (.exitMove child saved))
    (current : kernel.curTask cpu = some self) :
    ((kernel.handOver self child).setPc cpu (.task slot (.exitChildPut child saved))).Sound := by
  rcases sound.self_eq atPc current with rfl
  have listed := sound.lists cpu self _ child atPc (.inl rfl)
  have keeps : ∀ index grandchild, grandchild ≠ child → (grandchild ∈
      (kernel.handOver self child).childs index ↔ grandchild ∈ kernel.childs index) := by
    intro index grandchild different
    simp [sound.mem_handOver_childs listed, different]
  have unlisted : ∀ index, kernel.Unlisted index →
      ∀ parent, index ∉ (kernel.handOver self child).childs parent := by
    intro index isUnlisted parent
    have notChild : index ≠ child := by
      rintro rfl
      exact isUnlisted self listed
    rw [keeps parent index notChild]
    exact isUnlisted parent
  refine sound.listStep
    { atPc := atPc, pcs := rfl, same := ⟨rfl, rfl⟩, lock := fun _ _ _ => id, childs := ?_,
      unlisted := ?_, locks := ?_, ownState := rfl, forks := nofun, reaps := nofun,
      hidden := nofun, free := ?_, lists := ?_, saved := trivial,
      nodup := (sound.owned_handOver_childs listed).nodup,
      disjoint := (sound.owned_handOver_childs listed).unique }
  · intro index holds
    refine sound.locks cpu index ?_
    rw [atPc]
    exact holds
  · intro other index different executes grandchild there
    refine (keeps index grandchild ?_).mpr there
    rintro rfl
    rcases sound.disjoint index self grandchild there listed with rfl
    exact sound.alone atPc different executes
  · exact fun other index _ isHidden => unlisted index (sound.hidden other index isHidden)
  · exact fun index isFree => unlisted index (sound.free index isFree)
  · intro grandchild isSaved
    have savedOk : saved ≠ some child := sound.saved cpu self _ atPc
    refine (keeps self grandchild ?_).mpr (sound.lists cpu self _ grandchild atPc (.inr isSaved))
    rintro rfl
    exact savedOk isSaved

/-! ## The scheduler -/

omit [DecidableEq Cpu] in
theorem lock_of_occupies (occupies : kernel.Occupies cpu slot) :
    kernel.lock slot = some cpu ∨ kernel.state slot = .RUN ∨ kernel.state slot = .EXIT := by
  unfold Occupies at occupies
  split at occupies
  case h_1 other isPc | h_2 other isPc =>
    exact .inl (sound.locks cpu slot (by rw [isPc]; exact occupies.symm))
  case h_3 other task isPc =>
    subst occupies
    have expects : (kernel.pc cpu).Expects other task.ownState := by
      rw [isPc]
      exact .inl ⟨rfl, rfl⟩
    rw [sound.ownState isPc]
    rcases sound.expects_cases expects with ⟨_, _, _, running | exited | locked⟩ |
      ⟨locked, _⟩ | ⟨_, isInit⟩ | ⟨_, isExit⟩
    · exact .inr (.inl running)
    · exact .inr (.inr exited)
    · exact .inl locked
    · exact .inl locked
    · rw [isPc] at expects
      unfold TaskPc.ownState at isInit
      split at isInit <;> cases isInit
    · exact .inr (.inr isExit)
  case h_4 other isPc =>
    exact .inl (sound.locks cpu slot (by rw [isPc]; exact occupies.1.symm))
  case h_5 => exact absurd occupies id

theorem schedMove {pc : CpuPc} (pcs : next.pc = update kernel.pc cpu pc)
    (same : next.state = kernel.state ∧ next.childs = kernel.childs)
    (curTask : ∀ other, other ≠ cpu → next.curTask other = kernel.curTask other)
    (lock : ∀ other slot, other ≠ cpu → kernel.lock slot = some other → next.lock slot = some other)
    (current : CurrentOk (next.curTask cpu) pc)
    (locks : ∀ slot, pc.Holds slot → next.lock slot = some cpu)
    (states : ∀ slot state, pc.Expects slot state → kernel.state slot = state)
    (occupied : ∀ slot, next.Occupies cpu slot → kernel.Occupies cpu slot)
    (idle : ∀ slot task, pc = .task slot task → task.forks = none ∧ task.reaps = none ∧
      task.hidden = none ∧ (∀ child, ¬ task.Lists child) ∧ task.SavedOk) :
    next.Sound := by
  refine sound.schedStep
    { pcs := pcs, childs := same.2, curTask := curTask, lock := lock, state := ?_,
      current := current, locks := locks, states := ?_, occupied := ?_, free := ?_,
      idle := idle }
  · intro other slot state _ _
    rw [same.1]
  · rw [same.1]
    exact states
  · exact fun other slot different occupies occupiesNext =>
      different (sound.occupied other cpu slot occupies (occupied slot occupiesNext))
  · rw [same.1]
    exact fun _ => id

theorem switch {context : Context} (atPc : kernel.pc cpu = .task slot (.switch context))
    (current : kernel.curTask cpu = some self) :
    ((kernel.setContext self context).setPc cpu (.schedClear slot)).Sound := by
  rcases sound.self_eq atPc current with rfl
  refine sound.schedMove rfl ⟨rfl, rfl⟩ (fun _ _ => rfl) (fun _ _ _ => id) (.inr current)
    ?_ ?_ ?_ ?_
  · intro index holds
    refine sound.locks cpu index ?_
    rw [atPc]
    exact .inl ⟨holds, trivial⟩
  · rintro _ _ ⟨⟩
  · intro index occupies
    simp only [Occupies, setPc, update_self] at occupies
    simp [Occupies, atPc, occupies.1]
  · rintro _ _ ⟨⟩

theorem schedLock (atPc : kernel.pc cpu = .schedLock slot) (free : kernel.lock slot = none) :
    ((kernel.setLock slot (some cpu)).setPc cpu (.schedTest slot)).Sound := by
  have current := sound.current cpu
  rw [atPc] at current
  refine sound.schedMove rfl ⟨rfl, rfl⟩ (fun _ _ => rfl) (setLock_others (by simp [free]))
    current ?_ ?_ ?_ ?_
  · rintro index rfl
    simp
  · rintro _ _ ⟨⟩
  · simp [Occupies]
  · rintro _ _ ⟨⟩

theorem schedReady (atPc : kernel.pc cpu = .schedTest slot) (ready : kernel.state slot = .READY) :
    (kernel.setPc cpu (.schedState slot)).Sound := by
  have current := sound.current cpu
  have locks := sound.locks cpu
  rw [atPc] at current locks
  refine sound.schedMove rfl ⟨rfl, rfl⟩ (fun _ _ => rfl) (fun _ _ _ => id) current locks
    ?_ ?_ ?_
  · rintro index state ⟨rfl, rfl⟩
    exact ready
  · simp [Occupies]
  · rintro _ _ ⟨⟩

theorem schedPass (atPc : kernel.pc cpu = .schedTest slot) :
    (kernel.setPc cpu (.schedClear slot)).Sound := by
  have current : kernel.curTask cpu = none := by
    have known := sound.current cpu
    rwa [atPc] at known
  have locks := sound.locks cpu
  rw [atPc] at locks
  refine sound.schedMove rfl ⟨rfl, rfl⟩ (fun _ _ => rfl) (fun _ _ _ => id) (.inl current)
    locks ?_ ?_ ?_
  · rintro _ _ ⟨⟩
  · simp [Occupies, current]
  · rintro _ _ ⟨⟩

theorem schedState (atPc : kernel.pc cpu = .schedState slot) :
    ((kernel.setState slot .RUN).setPc cpu (.schedCur slot)).Sound := by
  have current := sound.current cpu
  have locks := sound.locks cpu
  have ready := sound.states cpu slot .READY
  rw [atPc] at current locks ready
  have isReady := ready ⟨rfl, rfl⟩
  have locked := locks slot rfl
  refine sound.schedStep
    { pcs := rfl, childs := rfl, curTask := fun _ _ => rfl, lock := fun _ _ _ => id,
      state := ?_, current := current, locks := locks, states := ?_, occupied := ?_,
      free := ?_, idle := (by rintro _ _ ⟨⟩) }
  · intro other index state different expects
    have notSlot : index ≠ slot := by
      rintro rfl
      exact sound.not_expects_of_lock locked different (by simp [isReady]) state expects
    simp [notSlot]
  · rintro index state ⟨rfl, rfl⟩
    simp
  · intro other index different occupies occupiesNext
    have isSlot : slot = index := by
      simpa [Occupies] using occupiesNext
    subst isSlot
    rcases sound.lock_of_occupies occupies with held | running | dying
    · rw [locked] at held
      exact different (Option.some.inj held).symm
    · simp [isReady] at running
    · simp [isReady] at dying
  · intro index isFree
    by_cases same : index = slot
    · subst same
      simp at isFree
    · simpa [same] using isFree

theorem schedCur (atPc : kernel.pc cpu = .schedCur slot) :
    ((kernel.setCurTask cpu (some slot)).setPc cpu (.schedSwitch slot)).Sound := by
  have locks := sound.locks cpu
  have states := sound.states cpu
  rw [atPc] at locks states
  refine sound.schedMove rfl ⟨rfl, rfl⟩ ?_ (fun _ _ _ => id) ?_ locks states ?_ ?_
  · intro other different
    simp [different]
  · simp [CurrentOk]
  · simp [Occupies, atPc]
  · rintro _ _ ⟨⟩

theorem schedSwitch (atPc : kernel.pc cpu = .schedSwitch slot) :
    (kernel.setPc cpu (.task slot (kernel.ctx slot).entry)).Sound := by
  have current := sound.current cpu
  have locks := sound.locks cpu
  have states := sound.states cpu
  rw [atPc] at current locks states
  have entry : ∀ context : Context, context.entry.ownState = .RUN ∧
      context.entry.visits = none ∧ context.entry.forks = none ∧ context.entry.reaps = none ∧
      context.entry.hidden = none ∧ (∀ child, ¬ context.entry.Lists child) ∧
      context.entry.SavedOk := by
    intro context
    cases context <;> exact ⟨rfl, rfl, rfl, rfl, rfl, fun _ => id, trivial⟩
  rcases entry (kernel.ctx slot) with ⟨ownState, visits, forks, reaps, rest⟩
  refine sound.schedMove rfl ⟨rfl, rfl⟩ (fun _ _ => rfl) (fun _ _ _ => id) current
    ?_ ?_ ?_ ?_
  · rintro index (⟨rfl, _⟩ | visited)
    · exact locks index rfl
    · simp [visits] at visited
  · rintro index state (⟨rfl, rfl⟩ | ⟨forked, _⟩ | ⟨reaped, _⟩)
    · exact states index _ ⟨rfl, ownState⟩
    · simp [forks] at forked
    · simp [reaps] at reaped
  · simp [Occupies, atPc]
  · rintro index task ⟨⟩
    exact ⟨forks, reaps, rest⟩

theorem schedClear (atPc : kernel.pc cpu = .schedClear slot) :
    ((kernel.setCurTask cpu none).setPc cpu (.schedPut slot)).Sound := by
  have locks := sound.locks cpu
  rw [atPc] at locks
  refine sound.schedMove rfl ⟨rfl, rfl⟩ ?_ (fun _ _ _ => id) ?_ locks ?_ ?_ ?_
  · intro other different
    simp [different]
  · simp [CurrentOk]
  · rintro _ _ ⟨⟩
  · simp [Occupies]
  · rintro _ _ ⟨⟩

theorem schedPut (atPc : kernel.pc cpu = .schedPut slot) (held : kernel.lock slot = some cpu) :
    ((kernel.setLock slot none).setPc cpu (.schedLock (slot + 1))).Sound := by
  have current := sound.current cpu
  rw [atPc] at current
  refine sound.schedMove rfl ⟨rfl, rfl⟩ (fun _ _ => rfl) (setLock_others ?_) current
    ?_ ?_ ?_ ?_
  · intro other different heldThere
    rw [held] at heldThere
    exact different (Option.some.inj heldThere).symm
  · rintro _ ⟨⟩
  · rintro _ _ ⟨⟩
  · simp [Occupies]
  · rintro _ _ ⟨⟩

end

/-! ## Runs -/

omit [DecidableEq Cpu] in
theorem initial (boot : kernel.Boot) : kernel.Sound := by
  have pc : ∀ cpu, kernel.pc cpu = .schedLock 0 := fun cpu => congrFun boot.pc cpu
  have childs : ∀ slot, kernel.childs slot = [] := fun slot => congrFun boot.childs slot
  have curTask : ∀ cpu, kernel.curTask cpu = none := fun cpu => congrFun boot.curTask cpu
  constructor
  · intro cpu
    rw [pc, curTask]
    rfl
  all_goals
    simp [pc, childs, Occupies, Unlisted, CpuPc.Holds, CpuPc.Expects, CpuPc.forks,
      CpuPc.reaps, CpuPc.hidden, CpuPc.taskPc]

theorem transition [DecidableEq Page] (sound : kernel.Sound) (allowed : kernel.FreesLeft cpu)
    (moves : kernel.Transition cpu next) : next.Sound := by
  cases moves with
  | move atPc current moves => exact sound.move atPc current moves
  | locks atPc current gets free => exact sound.gets atPc current gets free
  | puts atPc current puts held => exact sound.puts atPc current puts held
  | stores atPc current stores => exact sound.stores allowed atPc current stores
  | pages atPc current pages => exact sound.pages atPc pages
  | sleepChan atPc current =>
    exact sound.inherit_congr atPc ⟨rfl, rfl, rfl, rfl, rfl⟩ id rfl rfl rfl rfl nofun
      (fun _ => id) trivial
  | chanNull atPc current =>
    exact sound.inherit_congr atPc ⟨rfl, rfl, rfl, rfl, rfl⟩ id rfl rfl rfl rfl nofun
      (fun _ => id) trivial
  | switch atPc current => exact sound.switch atPc current
  | allocTq atPc current free =>
    exact sound.inherit_congr atPc ⟨rfl, rfl, rfl, rfl, rfl⟩ id rfl rfl rfl rfl nofun
      (fun _ => id) trivial
  | allocPutTq atPc current =>
    exact sound.inherit_congr atPc ⟨rfl, rfl, rfl, rfl, rfl⟩ id rfl rfl rfl rfl (fun _ => id)
      (fun _ => id) trivial
  | taskInit atPc current => exact sound.taskInit atPc
  | forkPush atPc current => exact sound.forkPush atPc current
  | forkContext atPc current =>
    exact sound.inherit_congr atPc ⟨rfl, rfl, rfl, rfl, rfl⟩ id rfl rfl rfl rfl nofun
      (fun _ => id) trivial
  | exitMove atPc current => exact sound.exitMove atPc current
  | waitRemove atPc current => exact sound.waitRemove atPc current
  | schedLock atPc free => exact sound.schedLock atPc free
  | schedReady atPc ready => exact sound.schedReady atPc ready
  | schedPass atPc notReady => exact sound.schedPass atPc
  | schedState atPc => exact sound.schedState atPc
  | schedCur atPc => exact sound.schedCur atPc
  | schedSwitch atPc => exact sound.schedSwitch atPc
  | schedClear atPc => exact sound.schedClear atPc
  | schedPut atPc held => exact sound.schedPut atPc held

end Sound

theorem state_of_transition [DecidableEq Cpu] [DecidableEq Page]
    (moves : kernel.Transition cpu next) :
    next.state = kernel.state ∨ (∃ slot, next.state = update kernel.state slot .RUN) ∨
      ∃ slot self pc other old new after, kernel.pc cpu = .task slot pc ∧
        kernel.curTask cpu = some self ∧ kernel.Stores self pc other old new after ∧
        next.state = update kernel.state other new := by
  cases moves with
  | stores atPc current stores =>
    exact .inr (.inr ⟨_, _, _, _, _, _, _, atPc, current, stores, rfl⟩)
  | schedState atPc => exact .inr (.inl ⟨_, rfl⟩)
  | pages atPc current pages =>
    left
    cases pages with
    | alloc | free | clean => rfl
    | allocForTask place allocates => exact (allocPageForTask_same allocates).1
    | stack allocates => exact (allocPageForTask_same allocates).1
  | _ => exact .inl rfl

/-- What may follow in task code: the CPU was in the code of the slot or switches to
it, and only a successful test in `sys_wait` starts to reap a child. -/
def Follows (kernel : Kernel Cpu Page) (cpu : Cpu) : CpuPc → Prop
  | .task slot after =>
    (kernel.Executes cpu slot ∨ kernel.pc cpu = .schedSwitch slot) ∧
      ∀ child, after.reaps = some child → (kernel.pc cpu).reaps = some child ∨
        kernel.pc cpu = .task slot (.waitVisit child) ∧ kernel.state child = .EXIT
  | _ => True

theorem Follows.of_task {pc after : TaskPc} (atPc : kernel.pc cpu = .task slot pc)
    (reaps : ∀ child, after.reaps = some child →
      pc.reaps = some child ∨ pc = .waitVisit child ∧ kernel.state child = .EXIT) :
    kernel.Follows cpu (.task slot after) := by
  refine ⟨.inl ⟨pc, atPc⟩, fun child reapsAfter => ?_⟩
  rcases reaps child reapsAfter with before | ⟨rfl, zombie⟩
  · rw [atPc]
    exact .inl before
  · exact .inr ⟨atPc, zombie⟩

theorem reaps_of_move {self child : Slot} {pc after : TaskPc} (moves : kernel.Move self pc after)
    (reaps : after.reaps = some child) :
    pc.reaps = some child ∨ pc = .waitVisit child ∧ kernel.state child = .EXIT := by
  cases moves with
  | @waitZombie reaped zombie =>
    cases reaps
    exact .inr ⟨rfl, zombie⟩
  | waitCopied => exact .inl reaps
  | @wakeupDone chan index after => cases after <;> cases reaps
  | _ => cases reaps

theorem pc_of_transition [DecidableEq Cpu] [DecidableEq Page] (moves : kernel.Transition cpu next) :
    ∃ pc, next.pc = update kernel.pc cpu pc ∧ kernel.Follows cpu pc := by
  cases moves with
  | move atPc current moves =>
    exact ⟨_, rfl, .of_task atPc fun child => reaps_of_move moves⟩
  | locks atPc current gets free =>
    refine ⟨_, rfl, .of_task atPc fun child reaps => ?_⟩
    cases gets <;> cases reaps
  | puts atPc current puts held =>
    refine ⟨_, rfl, .of_task atPc fun child reaps => ?_⟩
    cases puts with
    | @putLock after => cases after <;> cases reaps
    | _ => cases reaps
  | stores atPc current stores =>
    refine ⟨_, rfl, .of_task atPc fun child reaps => ?_⟩
    cases stores <;> cases reaps
  | pages atPc current pages =>
    cases pages with
    | alloc | free | clean => exact ⟨_, rfl, .of_task atPc (by rintro _ ⟨⟩)⟩
    | allocForTask place allocates =>
      have same := (allocPageForTask_same allocates).2.2.2.1
      exact ⟨_, by rw [setPc, same], .of_task atPc fun child => .inl⟩
    | @stack allocated page child allocates =>
      have same : (allocated.setStack child page).pc = kernel.pc :=
        (allocPageForTask_same allocates).2.2.2.1
      refine ⟨.task _ (.laterPages child), ?_, .of_task atPc (by rintro _ ⟨⟩)⟩
      rw [setPc, same]
  | sleepChan atPc | chanNull atPc | allocTq atPc | allocPutTq atPc | taskInit atPc
  | forkPush atPc | forkContext atPc | exitMove atPc =>
    exact ⟨_, rfl, .of_task atPc (by rintro _ ⟨⟩)⟩
  | waitRemove atPc => exact ⟨_, rfl, .of_task atPc fun child => .inl⟩
  | @schedSwitch slot atPc =>
    refine ⟨_, rfl, .inr atPc, fun child reaps => ?_⟩
    cases isContext : kernel.ctx slot <;> rw [isContext] at reaps <;> cases reaps
  | _ => exact ⟨_, rfl, trivial⟩

theorem expects_of_reaps {pc : CpuPc} {child : Slot} (reaps : pc.reaps = some child) :
    pc.Expects child .EXIT := by
  cases pc with
  | task slot task => exact .inr (.inr ⟨reaps, rfl⟩)
  | _ => cases reaps

/-- Nobody executes a slot that is being reaped. -/
def ReapedLeft (kernel : Kernel Cpu Page) : Prop :=
  ∀ cpu child, (kernel.pc cpu).reaps = some child → ∀ other, ¬ kernel.Executes other child

/-- The condition on runs: when `sys_wait` finds a child in state `EXIT`, the CPU
that ran the child has switched away from it. -/
def FindsLeft (kernel : Kernel Cpu Page) (label : Label Cpu Page) : Prop :=
  ∀ slot child, kernel.pc label.cpu = .task slot (.waitVisit child) →
    kernel.state child = .EXIT → ∀ other, ¬ kernel.Executes other child

theorem ReapedLeft.freesLeft (left : kernel.ReapedLeft) (cpu : Cpu) : kernel.FreesLeft cpu := by
  intro slot child atPc
  refine left cpu child ?_
  rw [atPc]
  rfl

theorem ReapedLeft.transition [DecidableEq Cpu] [DecidableEq Page] {label : Label Cpu Page}
    (sound : kernel.Sound) (left : kernel.ReapedLeft) (allowed : kernel.FindsLeft label)
    (moves : kernel.Transition label.cpu next) : next.ReapedLeft := by
  rcases pc_of_transition moves with ⟨pc, pcs, follows⟩
  -- a slot that is executed now was executed before, or is the one switched to
  have executed : ∀ other slot, next.Executes other slot →
      kernel.Executes other slot ∨ kernel.pc other = .schedSwitch slot := by
    rintro other slot ⟨task, there⟩
    by_cases same : other = label.cpu
    · subst same
      rw [pcs, update_self] at there
      rw [there] at follows
      exact follows.1
    · rw [pcs, update_of_ne same] at there
      exact .inl ⟨task, there⟩
  intro cpu child reaps other executes
  have before : kernel.state child = .EXIT ∧ ∀ other, ¬ kernel.Executes other child := by
    have inherited : (kernel.pc cpu).reaps = some child →
        kernel.state child = .EXIT ∧ ∀ other, ¬ kernel.Executes other child :=
      fun reapsBefore =>
        ⟨sound.states cpu child .EXIT (expects_of_reaps reapsBefore), left cpu child reapsBefore⟩
    by_cases same : cpu = label.cpu
    · subst same
      rw [pcs, update_self] at reaps
      cases pc with
      | task slot task =>
        rcases follows.2 child reaps with reapsBefore | ⟨visits, zombie⟩
        · exact inherited reapsBefore
        · exact ⟨zombie, allowed slot child visits zombie⟩
      | _ => cases reaps
    · rw [pcs, update_of_ne same] at reaps
      exact inherited reaps
  rcases executed other child executes with executesBefore | switches
  · exact before.2 other executesBefore
  · have running := sound.states other child .RUN (by
      rw [switches]
      exact ⟨rfl, rfl⟩)
    simp [before.1] at running

/-! ## The claim on slots -/

def RunsOnce (kernel : Kernel Cpu Page) : Prop :=
  ∀ left right slot, kernel.curTask left = some slot → kernel.curTask right = some slot →
    left = right

/-- A step of `cpu` moves no slot to `FREE`, `INIT` or `READY` that another CPU
executes. -/
def LeavesExecuted (kernel : Kernel Cpu Page) (cpu : Cpu) (next : Kernel Cpu Page) : Prop :=
  ∀ slot, next.state slot ≠ kernel.state slot →
    (next.state slot = .FREE ∨ next.state slot = .INIT ∨ next.state slot = .READY) →
    ∀ other, other ≠ cpu → ¬ kernel.Executes other slot

theorem Sound.occupies_of_curTask (sound : kernel.Sound) (current : kernel.curTask cpu =
    some slot) :
    kernel.Occupies cpu slot := by
  have known := sound.current cpu
  rw [current] at known
  unfold Occupies
  cases isPc : kernel.pc cpu with
  | schedSwitch other | task other pc =>
    rw [isPc] at known
    exact (Option.some.inj known).symm
  | schedClear other =>
    rw [isPc] at known
    rcases known with isNone | isSome
    · cases isNone
    · exact ⟨(Option.some.inj isSome).symm, current⟩
  | _ =>
    rw [isPc] at known
    cases known

theorem Sound.runsOnce (sound : kernel.Sound) : kernel.RunsOnce :=
  fun left right slot leftCurrent rightCurrent => sound.occupied left right slot
    (sound.occupies_of_curTask leftCurrent) (sound.occupies_of_curTask rightCurrent)

theorem Sound.leavesExecuted [DecidableEq Cpu] [DecidableEq Page] (sound : kernel.Sound)
    (left : kernel.FreesLeft cpu) (moves : kernel.Transition cpu next) :
    kernel.LeavesExecuted cpu next := by
  rintro slot changed recycled other different ⟨task, there⟩
  rcases state_of_transition moves with same | ⟨index, runs⟩ |
    ⟨running, self, pc, index, old, new, after, atPc, current, stores, stored⟩
  · exact changed (by rw [same])
  · by_cases isIndex : slot = index
    · subst isIndex
      simp [runs] at recycled
    · exact changed (by rw [runs, update_of_ne isIndex])
  · by_cases isIndex : slot = index
    · subst isIndex
      refine sound.stores_alone left atPc current stores other task.ownState different ?_
      rw [there]
      exact .inl ⟨rfl, rfl⟩
    · exact changed (by rw [stored, update_of_ne isIndex])

theorem sound_of_reaches [DecidableEq Cpu] [DecidableEq Page]
    (reached : (machine Cpu Page).Reaches FindsLeft kernel) :
    kernel.Sound ∧ kernel.ReapedLeft := by
  apply reached.invariant fun kernel => kernel.Sound ∧ kernel.ReapedLeft
  · intro start boot
    refine ⟨.initial boot, ?_⟩
    intro cpu child reaps
    rw [congrFun boot.pc cpu] at reaps
    cases reaps
  · rintro kernel label next ⟨sound, left⟩ allowed stepped
    have moves := transition_of_step stepped
    exact ⟨sound.transition (left.freesLeft label.cpu) moves, left.transition sound allowed moves⟩

/-- In every run whose tests in `sys_wait` find only children that have switched
away: no slot is current on two CPUs, and no step recycles a slot that another CPU
executes. -/
theorem slot_not_recycled_while_running [DecidableEq Cpu] [DecidableEq Page]
    (reached : (machine Cpu Page).Reaches FindsLeft kernel) :
    kernel.RunsOnce ∧ ∀ label next, (machine Cpu Page).step kernel label = some next →
      kernel.LeavesExecuted label.cpu next := by
  rcases sound_of_reaches reached with ⟨sound, left⟩
  refine ⟨sound.runsOnce, ?_⟩
  intro label next stepped
  exact sound.leavesExecuted (left.freesLeft label.cpu) (transition_of_step stepped)

def exampleStart : Kernel (Fin 2) Nat where
  state slot := if slot = 0 then .READY else .FREE
  chan _ := none
  lock _ := none
  parent _ := none
  childs _ := []
  ctx _ := .putLock
  kstack slot := if slot = 0 then some 0 else none
  pageHead slot := if slot = 0 then [0] else []
  tq := none
  pc _ := .schedLock 0
  curTask _ := none
  inuse page := page = 0
  pagesHead := [1, 2]
  loose := []

theorem initial_exampleStart : (machine (Fin 2) Nat).Initial exampleStart where
  state := rfl
  lock := rfl
  childs := rfl
  tq := rfl
  pc := rfl
  curTask := rfl
  ctx := rfl
  partitioned :=
    { freeNodup := by decide
      free := by decide
      headNodup := by decide
      head := by decide
      headDisjoint := by
        intro left right page inLeft inRight
        simp only [exampleStart] at inLeft inRight
        split at inLeft <;> split at inRight <;> simp_all
      looseNodup := List.nodup_nil
      loose := nofun
      looseDisjoint := nofun }
  kstack := ⟨0, by decide, rfl⟩
  pages := by
    intro slot notFirst
    simp [exampleStart, notFirst]

def go (cpu : Fin 2) (count : Nat) : List (Label (Fin 2) Nat) :=
  List.replicate count ⟨cpu, .go⟩

def forkRun : List (Label (Fin 2) Nat) :=
  go 0 6 ++ [⟨0, .fork⟩] ++ go 0 14 ++ go 1 10

theorem slot_not_recycled_while_running_forkRun :
    ∃ kernel, (machine (Fin 2) Nat).run exampleStart forkRun = some kernel ∧
      kernel.curTask 0 = some 0 ∧ kernel.curTask 1 = some 1 ∧ kernel.RunsOnce ∧
      ∀ label next, (machine (Fin 2) Nat).step kernel label = some next →
        kernel.LeavesExecuted label.cpu next := by
  have started : (machine (Fin 2) Nat).Reaches FindsLeft exampleStart :=
    .initial initial_exampleStart
  rcases (⟨_, rfl, rfl, rfl⟩ : ∃ kernel,
      (machine (Fin 2) Nat).run exampleStart forkRun = some kernel ∧
        kernel.curTask 0 = some 0 ∧ kernel.curTask 1 = some 1) with ⟨kernel, ran, left, right⟩
  refine ⟨kernel, ran, left, right, slot_not_recycled_while_running (started.run ?_ ran)⟩
  repeat first | exact trivial | refine ⟨nofun, ?_⟩

/-- The child exits up to its store of `EXIT`; the parent waits up to its store of
`FREE`. -/
def reapRun : List (Label (Fin 2) Nat) :=
  forkRun ++ [⟨1, .exit⟩] ++ go 1 4 ++ [⟨0, .wait⟩] ++ go 0 4

/-- The parent frees the slot, forks into it again and yields to the new child. -/
def reuseRun : List (Label (Fin 2) Nat) :=
  reapRun ++ go 0 1 ++ [⟨0, .fork⟩] ++ go 0 14 ++ [⟨0, .yield⟩] ++ go 0 9

theorem reapRun_recycles_running :
    (∃ kernel next, (machine (Fin 2) Nat).Reachable kernel ∧
      (machine (Fin 2) Nat).step kernel ⟨0, .go⟩ = some next ∧
      ¬ kernel.LeavesExecuted 0 next) ∧
    ∃ kernel, (machine (Fin 2) Nat).Reachable kernel ∧ ¬ kernel.RunsOnce := by
  have started : (machine (Fin 2) Nat).Reachable exampleStart :=
    .initial initial_exampleStart
  constructor
  · rcases (⟨_, _, rfl, rfl, rfl, rfl, _, rfl⟩ : ∃ kernel next,
        (machine (Fin 2) Nat).run exampleStart reapRun = some kernel ∧
          (machine (Fin 2) Nat).step kernel ⟨0, .go⟩ = some next ∧
          kernel.state 1 = .EXIT ∧ next.state 1 = .FREE ∧ kernel.Executes 1 1) with
      ⟨kernel, next, ran, stepped, before, after, executes⟩
    refine ⟨kernel, next, started.run ran, stepped, ?_⟩
    intro leaves
    exact leaves 1 (by simp [before, after]) (.inl after) 1 (by decide) executes
  · rcases (⟨_, rfl, rfl, rfl⟩ : ∃ kernel,
        (machine (Fin 2) Nat).run exampleStart reuseRun = some kernel ∧
          kernel.curTask 0 = some 1 ∧ kernel.curTask 1 = some 1) with
      ⟨kernel, ran, left, right⟩
    refine ⟨kernel, started.run ran, ?_⟩
    intro once
    exact absurd (once 0 1 1 left right) (by decide)

/-! ## Tasks in state `RUN` -/

variable [DecidableEq Cpu] [DecidableEq Page]

theorem run_of_transition (moves : kernel.Transition cpu next) (running : next.state slot = .RUN) :
    next.pc cpu = .schedCur slot ∨ kernel.state slot = .RUN ∧
      ((kernel.pc cpu).Expects slot .RUN →
        (next.pc cpu).Expects slot .RUN ∨ next.Executes cpu slot) := by
  cases moves with
  | stores _ _ stores =>
    cases stores <;> by_cases same : slot = ‹Slot› <;>
      simp_all [setPc, setState, CpuPc.Expects, Executes]
  | @pages _ _ _ after _ _ _ pages =>
    have same : after.state = kernel.state := by
      cases pages with
      | alloc | free | clean => rfl
      | allocForTask _ allocates | stack allocates => exact (allocPageForTask_same allocates).1
    simp_all [setPc, CpuPc.Expects, Executes]
  | @switch _ _ context =>
    cases context <;> simp_all [setPc, setContext, CpuPc.Expects, TaskPc.ownState]
  | @schedState other =>
    by_cases same : slot = other <;> simp_all [setPc, setState, CpuPc.Expects]
  | _ =>
    simp_all [setPc, setLock, setCurTask, setChan, handOver, setChilds, setParent, setPageHead,
      setContext, CpuPc.Expects, Executes]

/-- A slot is in state `RUN` if and only if a CPU has it in hand as a running task. -/
theorem run_iff_of_reaches (reached : (machine Cpu Page).Reaches FindsLeft kernel) (slot : Slot) :
    kernel.state slot = .RUN ↔ ∃ cpu, (kernel.pc cpu).Expects slot .RUN := by
  refine ⟨?_, ?_⟩
  · induction reached generalizing slot with
    | initial boot => simp [boot.state, ite_eq_iff]
    | @step kernel next label before allowed stepped dispatched =>
      intro running
      have moves := transition_of_step stepped
      rcases run_of_transition moves running with entered | ⟨was, stays⟩
      · exact ⟨label.cpu, entered ▸ ⟨rfl, rfl⟩⟩
      rcases dispatched slot was with ⟨cpu, expects⟩
      refine ⟨cpu, ?_⟩
      by_cases same : cpu = label.cpu
      · subst same
        rcases stays expects with here | ⟨pc, isPc⟩
        · exact here
        · have known := (sound_of_reaches (.step before allowed stepped)).1.states label.cpu slot
          rw [isPc] at known ⊢
          exact .inl ⟨rfl, running.symm.trans (known _ (.inl ⟨rfl, rfl⟩))⟩
      · rcases pc_of_transition moves with ⟨pc, pcs, _⟩
        rwa [pcs, update_of_ne same]
  · rintro ⟨cpu, expects⟩
    exact (sound_of_reaches reached).1.states cpu slot _ expects

theorem run_iff_of_go : ∃ kernel, (machine (Fin 2) Nat).run exampleStart (go 0 3) = some kernel ∧
    kernel.state 0 = .RUN ∧ ∃ cpu, (kernel.pc cpu).Expects 0 .RUN := by
  rcases (⟨_, rfl, rfl⟩ : ∃ kernel, (machine (Fin 2) Nat).run exampleStart (go 0 3) = some kernel ∧
    kernel.state 0 = .RUN) with ⟨kernel, ran, running⟩
  refine ⟨kernel, ran, running, (run_iff_of_reaches (.run (.initial initial_exampleStart) ?_ ran)
    0).mp running⟩
  refine ⟨?_, ?_, ?_, trivial⟩ <;> rintro _ _ ⟨⟩

end Tnix.Task.Kernel
