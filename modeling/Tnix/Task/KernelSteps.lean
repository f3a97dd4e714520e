import Tnix.Task.KernelInvariant

/-! # Every step keeps the slot invariant -/

namespace Tnix.Task.Kernel

variable {Cpu Page : Type} [DecidableEq Cpu] {kernel next : Kernel Cpu Page}

namespace Sound

/-! ## Steps that change the program counter only -/

variable {cpu : Cpu} {slot child other self : Slot} {pc after : TaskPc} {new : TaskState}

theorem inherit (sound : kernel.Sound) (atPc : kernel.pc cpu = .task slot pc)
    (owns : after.OwnsLock → pc.OwnsLock)
    (visits : ∀ index, after.visits = some index → pc.visits = some index)
    (ownState : after.ownState = pc.ownState)
    (forks : ∀ child, after.forks = some child → pc.forks = some child)
    (reaps : ∀ child, after.reaps = some child → pc.reaps = some child)
    (hidden : ∀ child, after.hidden = some child → pc.hidden = some child)
    (lists : ∀ child, after.Lists child → child ∈ kernel.childs slot) (saved : after.SavedOk) :
    (kernel.setPc cpu (.task slot after)).Sound := by
  refine sound.quietStep
    { atPc := atPc, pcs := rfl, same := ⟨rfl, rfl, rfl⟩, lock := fun _ _ _ => id, locks := ?_,
      ownState := ownState, forks := forks, reaps := ?_, hidden := hidden, lists := lists,
      saved := saved }
  · intro index holds
    refine sound.locks cpu index ?_
    rw [atPc]
    rcases holds with ⟨same, ownsAfter⟩ | visitsAfter
    · exact .inl ⟨same, owns ownsAfter⟩
    · exact .inr (visits index visitsAfter)
  · intro child reapsAfter
    have here : (kernel.pc cpu).reaps = some child := by
      rw [atPc]
      exact reaps child reapsAfter
    refine ⟨?_, ?_⟩
    · refine sound.states cpu child _ ?_
      rw [atPc]
      exact .inr (.inr ⟨reaps child reapsAfter, rfl⟩)
    · exact fun other different there => different (sound.reaps other cpu child there here)

theorem nextChild_mem {childs : List Slot} (isNext : nextChild childs child = some other) :
    other ∈ childs := by
  have inTail := List.mem_of_mem_head? (Option.mem_def.mpr isNext)
  exact (List.dropWhile_suffix _).subset (List.mem_of_mem_tail inTail)

theorem nextChild_ne {childs : List Slot} (nodup : childs.Nodup)
    (isNext : nextChild childs child = some other) : other ≠ child := by
  have stops := List.head?_dropWhile_not (fun slot => decide (slot ≠ child)) childs
  have suffix := List.dropWhile_suffix (fun slot => decide (slot ≠ child)) (l := childs)
  unfold nextChild at isNext
  cases rest : childs.dropWhile fun slot => decide (slot ≠ child) with
  | nil =>
    rw [rest] at isNext
    cases isNext
  | cons first rest' =>
    rw [rest] at stops isNext suffix
    have firstIs : first = child := by simpa using stops
    have inRest : other ∈ rest' := List.mem_of_mem_head? (Option.mem_def.mpr isNext)
    have notInRest := (List.nodup_cons.mp (suffix.sublist.nodup nodup)).1
    rintro rfl
    exact notInRest (firstIs ▸ inRest)

omit [DecidableEq Cpu] in
theorem not_reaped_of_listed (sound : kernel.Sound) {other : Cpu}
    (atPc : kernel.pc cpu = .task slot pc) (listed : child ∈ kernel.childs slot)
    (different : other ≠ cpu) :
    (kernel.pc other).reaps ≠ some child := by
  intro reaps
  cases otherPc : kernel.pc other with
  | task otherSlot task =>
    rw [otherPc] at reaps
    have hidden : task.hidden = some child → False := by
      intro hidden
      refine sound.hidden other child ?_ slot listed
      rw [otherPc]
      exact hidden
    cases task with
    | waitRemove reaped =>
      rcases (Option.some.inj reaps : reaped = child) with rfl
      have there := sound.lists other otherSlot _ reaped otherPc rfl
      rcases sound.disjoint otherSlot slot reaped there listed with rfl
      refine different (sound.occupied other cpu otherSlot ?_ ?_)
      · simp [Occupies, otherPc]
      · simp [Occupies, atPc]
    | waitCopy reaped => exact hidden reaps
    | waitFree reaped => exact hidden reaps
    | _ => cases reaps
  | _ =>
    rw [otherPc] at reaps
    cases reaps

theorem move (sound : kernel.Sound) (atPc : kernel.pc cpu = .task slot pc)
    (current : kernel.curTask cpu = some self) (moves : kernel.Move self pc after) :
    (kernel.setPc cpu (.task slot after)).Sound := by
  rcases sound.self_eq atPc current with rfl
  have listed := fun child => sound.lists cpu self pc child atPc
  cases moves with
  | yield | sleep | wakeup | fork | kill | waitNone | wait | cleanDone | waitEmpty
  | waitSleep | waitKilled | exitDone | exitWake =>
    exact sound.inherit atPc nofun nofun rfl nofun nofun nofun nofun trivial
  | exit =>
    refine sound.inherit atPc nofun nofun rfl nofun nofun nofun ?_ trivial
    exact fun child isHead => List.mem_of_mem_head? (Option.mem_def.mpr isHead)
  | @wakeupSkip chan after =>
    cases after <;> exact sound.inherit atPc nofun nofun rfl nofun nofun nofun nofun trivial
  | @wakeupDone chan index after done =>
    cases after <;> exact sound.inherit atPc nofun nofun rfl nofun nofun nofun nofun trivial
  | @wakeupPass chan other after pass =>
    cases after <;>
      exact sound.inherit atPc nofun (fun _ => id) rfl nofun nofun nofun nofun trivial
  | allocSkip =>
    exact sound.inherit atPc nofun (fun _ => id) rfl nofun nofun nofun nofun trivial
  | pagesDone =>
    exact sound.inherit atPc nofun nofun rfl (fun _ => id) nofun (fun _ => id) nofun trivial
  | @exitNext child =>
    refine sound.inherit atPc nofun nofun rfl nofun nofun nofun ?_ ?_
    · rintro other (rfl | isNext)
      · exact listed other rfl
      · exact nextChild_mem isNext
    · exact fun isNext => nextChild_ne (sound.nodup self) isNext rfl
  | waitFirst first =>
    refine sound.inherit atPc nofun nofun rfl nofun nofun nofun ?_ trivial
    rintro child rfl
    exact List.mem_of_mem_head? (Option.mem_def.mpr first)
  | waitNext alive isNext =>
    refine sound.inherit atPc nofun nofun rfl nofun nofun nofun ?_ trivial
    rintro child rfl
    exact nextChild_mem isNext
  | waitCopied =>
    exact sound.inherit atPc nofun nofun rfl nofun (fun _ => id) (fun _ => id) nofun trivial
  | @waitZombie child zombie =>
    have isListed := listed child rfl
    refine sound.quietStep
      { atPc := atPc, pcs := rfl, same := ⟨rfl, rfl, rfl⟩, lock := fun _ _ _ => id,
        locks := ?_, ownState := rfl, forks := nofun, reaps := ?_, hidden := nofun,
        lists := ?_, saved := trivial }
    · rintro index (⟨_, owns⟩ | visits)
      · exact absurd owns id
      · cases visits
    · rintro reaped ⟨⟩
      exact ⟨zombie, fun other different =>
        sound.not_reaped_of_listed atPc isListed different⟩
    · rintro other rfl
      exact isListed

/-! ## Spin locks -/

omit [DecidableEq Cpu] in
theorem setLock_others {holder : Option Cpu}
    (was : ∀ other, other ≠ cpu → kernel.lock slot ≠ some other) :
    ∀ other index, other ≠ cpu → kernel.lock index = some other →
      (kernel.setLock slot holder).lock index = some other := by
  intro other index different held
  have differentSlot : index ≠ slot := by
    rintro rfl
    exact was other different held
  simpa [differentSlot] using held

section
variable (sound : kernel.Sound)
include sound

section
variable (atPc : kernel.pc cpu = .task slot pc)
include atPc

theorem getLock (free : kernel.lock other = none)
    (holds : ∀ index, (CpuPc.task slot after).Holds index → index = other)
    (ownState : after.ownState = pc.ownState) (forks : after.forks = none)
    (reaps : after.reaps = none) (hidden : after.hidden = none)
    (lists : ∀ child, after.Lists child → pc.Lists child) (saved : pc.SavedOk → after.SavedOk) :
    ((kernel.setLock other (some cpu)).setPc cpu (.task slot after)).Sound := by
  refine sound.quietStep
    { atPc := atPc, pcs := rfl, same := ⟨rfl, rfl, rfl⟩,
      lock := setLock_others (by simp [free]), locks := ?_, ownState := ownState,
      forks := by simp [forks], reaps := by simp [reaps], hidden := by simp [hidden],
      lists := ?_, saved := saved (sound.saved cpu slot pc atPc) }
  · intro index holdsAfter
    rcases holds index holdsAfter with rfl
    simp
  · exact fun child isListed => sound.lists cpu slot pc child atPc (lists child isListed)

theorem gets (current : kernel.curTask cpu = some self)
    (locks : Locks self pc other after) (free : kernel.lock other = none) :
    ((kernel.setLock other (some cpu)).setPc cpu (.task slot after)).Sound := by
  rcases sound.self_eq atPc current with rfl
  cases locks with
  | yield | sleep | exit =>
    refine sound.getLock atPc free ?_ rfl rfl rfl rfl nofun id
    rintro index (⟨rfl, _⟩ | visits)
    · rfl
    · cases visits
  | @wakeup chan after other different =>
    have holds : ∀ index, (CpuPc.task self (.wakeupTest chan other after)).Holds index →
        index = other := by
      rintro index (⟨_, owns⟩ | visits)
      · exact absurd owns id
      · exact (Option.some.inj visits).symm
    cases after <;> exact sound.getLock atPc free holds rfl rfl rfl rfl nofun id
  | alloc =>
    refine sound.getLock atPc free ?_ rfl rfl rfl rfl nofun id
    rintro index (⟨_, owns⟩ | visits)
    · exact absurd owns id
    · exact (Option.some.inj visits).symm
  | exitChild =>
    refine sound.getLock atPc free ?_ rfl rfl rfl rfl (fun _ => id) id
    rintro index (⟨_, owns⟩ | visits)
    · exact absurd owns id
    · exact (Option.some.inj visits).symm

theorem putLock (held : kernel.lock other = some cpu)
    (holds : ∀ index, ¬ (CpuPc.task slot after).Holds index)
    (ownState : after.ownState = pc.ownState)
    (forks : ∀ child, after.forks = some child → pc.forks = some child) (reaps : after.reaps = none)
    (hidden : ∀ child, after.hidden = some child → pc.hidden = some child)
    (lists : ∀ child, after.Lists child → pc.Lists child) (saved : after.SavedOk) :
    ((kernel.setLock other none).setPc cpu (.task slot after)).Sound := by
  refine sound.quietStep
    { atPc := atPc, pcs := rfl, same := ⟨rfl, rfl, rfl⟩, lock := setLock_others ?_,
      locks := fun index holdsAfter => absurd holdsAfter (holds index), ownState := ownState,
      forks := forks, reaps := by simp [reaps], hidden := hidden, lists := ?_, saved := saved }
  · intro holder different heldThere
    rw [held] at heldThere
    exact different (Option.some.inj heldThere).symm
  · exact fun child isListed => sound.lists cpu slot pc child atPc (lists child isListed)

theorem puts (current : kernel.curTask cpu = some self)
    (puts : Puts self pc other after) (held : kernel.lock other = some cpu) :
    ((kernel.setLock other none).setPc cpu (.task slot after)).Sound := by
  rcases sound.self_eq atPc current with rfl
  cases puts with
  | @putLock after =>
    cases after <;>
      exact sound.putLock atPc held (by simp [CpuPc.Holds, SleepReturn.entry, TaskPc.OwnsLock,
        TaskPc.visits]) rfl nofun rfl nofun nofun trivial
  | @wakeup chan after other =>
    cases after <;>
      exact sound.putLock atPc held (by simp [CpuPc.Holds, TaskPc.OwnsLock, TaskPc.visits])
        rfl nofun rfl nofun nofun trivial
  | allocSkip =>
    exact sound.putLock atPc held (by simp [CpuPc.Holds, TaskPc.OwnsLock, TaskPc.visits])
      rfl nofun rfl nofun nofun trivial
  | alloc =>
    exact sound.putLock atPc held (by simp [CpuPc.Holds, TaskPc.OwnsLock, TaskPc.visits])
      rfl (fun _ => id) rfl (fun _ => id) nofun trivial
  | exitChild =>
    exact sound.putLock atPc held (by simp [CpuPc.Holds, TaskPc.OwnsLock, TaskPc.visits])
      rfl nofun rfl nofun (fun _ => id) trivial

end

/-! ## Stores to `state` -/

omit [DecidableEq Cpu]

theorem expects_cases {state : TaskState} (expects : (kernel.pc cpu).Expects slot state) :
    (kernel.Executes cpu slot ∧ state ≠ .INIT ∧ state ≠ .FREE ∧
        (state = .RUN ∨ state = .EXIT ∨ kernel.lock slot = some cpu)) ∨
      (kernel.lock slot = some cpu ∧
        (state = .READY ∨ state = .RUN ∧ kernel.Occupies cpu slot)) ∨
      ((kernel.pc cpu).forks = some slot ∧ state = .INIT) ∨
      ((kernel.pc cpu).reaps = some slot ∧ state = .EXIT) := by
  have locks := sound.locks cpu slot
  cases isPc : kernel.pc cpu with
  | schedState other =>
    rw [isPc] at expects locks
    exact .inr (.inl ⟨locks expects.1, .inl expects.2⟩)
  | schedCur other =>
    rw [isPc] at expects locks
    exact .inr (.inl ⟨locks expects.1, .inr ⟨expects.2, by
      simp [Occupies, isPc, expects.1]⟩⟩)
  | schedSwitch other =>
    rw [isPc] at expects locks
    exact .inr (.inl ⟨locks expects.1, .inr ⟨expects.2, by
      simp [Occupies, isPc, expects.1]⟩⟩)
  | task self pc =>
    rw [isPc] at expects locks
    rcases expects with ⟨rfl, rfl⟩ | forks | reaps
    · refine .inl ⟨⟨pc, isPc⟩, ?_⟩
      have owns : pc.OwnsLock → kernel.lock slot = some cpu := fun owns =>
        locks (.inl ⟨rfl, owns⟩)
      unfold TaskPc.ownState
      split <;> simp_all [TaskPc.OwnsLock]
    · exact .inr (.inr (.inl forks))
    · exact .inr (.inr (.inr reaps))
  | _ =>
    rw [isPc] at expects
    exact absurd expects id

theorem not_expects_of_lock {other : Cpu} (held : kernel.lock slot = some cpu)
    (different : other ≠ cpu)
    (notRunning : kernel.state slot ≠ .RUN ∧ kernel.state slot ≠ .EXIT ∧ kernel.state slot ≠ .INIT)
    (state : TaskState) :
    ¬ (kernel.pc other).Expects slot state := by
  intro expects
  have stateIs := sound.states other slot state expects
  have notHeld : kernel.lock slot ≠ some other := by
    rw [held]
    exact fun same => different (Option.some.inj same).symm
  rcases sound.expects_cases expects with ⟨_, _, _, running | exited | locked⟩ |
    ⟨locked, _⟩ | ⟨_, isInit⟩ | ⟨_, isExit⟩
  · exact notRunning.1 (stateIs.trans running)
  · exact notRunning.2.1 (stateIs.trans exited)
  · exact notHeld locked
  · exact notHeld locked
  · exact notRunning.2.2 (stateIs.trans isInit)
  · exact notRunning.2.1 (stateIs.trans isExit)

section
variable (atPc : kernel.pc cpu = .task slot pc)
include atPc

theorem not_expects_of_runs {other : Cpu}
    (running : pc.ownState = .RUN) (different : other ≠ cpu) (state : TaskState) :
    ¬ (kernel.pc other).Expects slot state := by
  intro expects
  have stateIs : state = .RUN :=
    (sound.states other slot state expects).symm.trans ((sound.ownState atPc).trans running)
  have alone : ¬ kernel.Occupies other slot := fun occupies =>
    different (sound.occupied other cpu slot occupies (by simp [Occupies, atPc]))
  subst stateIs
  rcases sound.expects_cases expects with ⟨⟨task, there⟩, _⟩ | ⟨_, isReady | occupies⟩ |
    ⟨_, isInit⟩ | ⟨_, isExit⟩
  · exact alone (by simp [Occupies, there])
  · cases isReady
  · exact alone occupies.2
  · cases isInit
  · cases isExit

theorem not_expects_of_forks {other : Cpu}
    (forks : pc.forks = some child) (different : other ≠ cpu) (state : TaskState) :
    ¬ (kernel.pc other).Expects child state := by
  intro expects
  have isForked : (kernel.pc cpu).forks = some child := by
    rw [atPc]
    exact forks
  have isInit := sound.states cpu child .INIT (by
    rw [atPc]
    exact .inr (.inl ⟨forks, rfl⟩))
  have stateIs : state = .INIT := (sound.states other child state expects).symm.trans isInit
  subst stateIs
  rcases sound.expects_cases expects with ⟨_, notInit, _⟩ | ⟨_, isReady | isRun⟩ |
    ⟨forksThere, _⟩ | ⟨_, isExit⟩
  · exact notInit rfl
  · cases isReady
  · cases isRun.1
  · exact different (sound.forks other cpu child forksThere isForked)
  · cases isExit

theorem not_expects_of_reaps {other : Cpu}
    (reaps : pc.reaps = some child) (left : ∀ other, ¬ kernel.Executes other child)
    (different : other ≠ cpu) (state : TaskState) : ¬ (kernel.pc other).Expects child state := by
  intro expects
  have isReaped : (kernel.pc cpu).reaps = some child := by
    rw [atPc]
    exact reaps
  have isExit := sound.states cpu child .EXIT (by
    rw [atPc]
    exact .inr (.inr ⟨reaps, rfl⟩))
  have stateIs : state = .EXIT := (sound.states other child state expects).symm.trans isExit
  subst stateIs
  rcases sound.expects_cases expects with ⟨executes, _⟩ | ⟨_, isReady | isRun⟩ |
    ⟨_, isInit⟩ | ⟨reapsThere, _⟩
  · exact left other executes
  · cases isReady
  · cases isRun.1
  · cases isInit
  · exact different (sound.reaps other cpu child reapsThere isReaped)

theorem setState_self (new : TaskState) (different : kernel.state other ≠ pc.ownState) :
    (kernel.setState other new).state slot = pc.ownState := by
  have notSame : slot ≠ other := by
    rintro rfl
    exact different (sound.ownState atPc)
  simpa [notSame] using sound.ownState atPc

end

theorem stores_alone {old : TaskState} (allowed : kernel.FreesLeft cpu)
    (atPc : kernel.pc cpu = .task slot pc) (current : kernel.curTask cpu = some self)
    (stores : kernel.Stores self pc other old new after) :
    ∀ rival state, rival ≠ cpu → ¬ (kernel.pc rival).Expects other state := by
  rcases sound.self_eq atPc current with rfl
  have held : ∀ index, pc.visits = some index → kernel.lock index = some cpu := by
    intro index visits
    refine sound.locks cpu index ?_
    rw [atPc]
    exact .inr visits
  intro rival state different
  cases stores with
  | yield | sleep | exit => exact sound.not_expects_of_runs atPc rfl different state
  | wakeup asleep =>
    exact sound.not_expects_of_lock (held other rfl) different (by simp [asleep]) state
  | alloc free =>
    exact sound.not_expects_of_lock (held other rfl) different (by simp [free]) state
  | fork => exact sound.not_expects_of_forks atPc rfl different state
  | wait => exact sound.not_expects_of_reaps atPc rfl (allowed self other atPc) different state

variable [DecidableEq Cpu]

theorem storeState (atPc : kernel.pc cpu = .task slot pc)
    (alone : ∀ rival state, rival ≠ cpu → ¬ (kernel.pc rival).Expects other state)
    (holds : ∀ index, (CpuPc.task slot after).Holds index → (CpuPc.task slot pc).Holds index)
    (own : (kernel.setState other new).state slot = after.ownState)
    (forks : ∀ child, after.forks = some child → child = other ∧ new = .INIT)
    (reaps : after.reaps = none)
    (hidden : ∀ child, after.hidden = some child → kernel.Unlisted child)
    (lists : ∀ child, ¬ after.Lists child) (saved : after.SavedOk)
    (free : new = .FREE → kernel.Unlisted other) :
    ((kernel.setState other new).setPc cpu (.task slot after)).Sound := by
  have setOther : ((kernel.setState other new).setPc cpu (.task slot after)).state other =
      new := by
    simp
  refine sound.localStep cpu (.task slot after)
    { pcs := rfl, curTask := fun _ _ => rfl, lock := fun _ _ _ => id, state := ?_,
      childs := fun _ _ _ _ _ => id, unlisted := fun rival index _ => sound.hidden rival index,
      current := ?_, locks := ?_, states := ?_, occupied := ?_, forks := ?_, reaps := ?_,
      lists := ?_, saved := ?_, hidden := hidden, free := ?_, nodup := sound.nodup,
      disjoint := sound.disjoint }
  · intro rival index state different expects
    have notOther : index ≠ other := by
      rintro rfl
      exact alone rival state different expects
    simp [notOther]
  · have known := sound.current cpu
    rw [atPc] at known
    exact known
  · intro index holdsAfter
    refine sound.locks cpu index ?_
    rw [atPc]
    exact holds index holdsAfter
  · rintro index state (⟨rfl, rfl⟩ | ⟨forksAfter, rfl⟩ | ⟨reapsAfter, rfl⟩)
    · exact own
    · rcases forks index forksAfter with ⟨rfl, rfl⟩
      exact setOther
    · simp [reaps] at reapsAfter
  · intro rival index different occupies occupiesNext
    have isSlot : slot = index := by
      simpa [Occupies] using occupiesNext
    exact different (sound.occupied rival cpu index occupies (by
      simp [Occupies, atPc, isSlot]))
  · intro rival index different forksThere forksAfter
    rcases forks index forksAfter with ⟨rfl, _⟩
    refine alone rival .INIT different ?_
    cases rivalPc : kernel.pc rival with
    | task self task =>
      rw [rivalPc] at forksThere
      exact .inr (.inl ⟨forksThere, rfl⟩)
    | _ =>
      rw [rivalPc] at forksThere
      cases forksThere
  · intro rival index _ _ reapsAfter
    have reapsHere : after.reaps = some index := reapsAfter
    simp [reaps] at reapsHere
  · rintro index task child ⟨⟩ isListed
    exact absurd isListed (lists child)
  · rintro index task ⟨⟩
    exact saved
  · intro index isFree
    by_cases same : index = other
    · subst same
      exact free (setOther.symm.trans isFree)
    · exact sound.free index (by simpa [same] using isFree)

theorem stores {old : TaskState} (allowed : kernel.FreesLeft cpu)
    (atPc : kernel.pc cpu = .task slot pc) (current : kernel.curTask cpu = some self)
    (stores : kernel.Stores self pc other old new after) :
    ((kernel.setState other new).setPc cpu (.task slot after)).Sound := by
  have alone := sound.stores_alone allowed atPc current stores
  rcases sound.self_eq atPc current with rfl
  cases stores with
  | yield | sleep =>
    refine sound.storeState atPc alone (fun _ => id) ?_ nofun rfl nofun (fun _ => id) trivial
      nofun
    simp [TaskPc.ownState]
  | exit =>
    refine sound.storeState atPc alone ?_ ?_ nofun rfl nofun (fun _ => id) trivial nofun
    · rintro index (⟨_, owns⟩ | visits)
      · exact absurd owns id
      · cases visits
    · simp [TaskPc.ownState]
  | @wakeup chan other after asleep chanIs =>
    cases after <;>
      exact sound.storeState atPc alone (fun _ => id)
        (sound.setState_self atPc _ (by simp [asleep, TaskPc.ownState])) nofun rfl nofun
        (fun _ => id) trivial nofun
  | alloc free =>
    refine sound.storeState atPc alone (fun _ => id) ?_ ?_ rfl ?_ (fun _ => id) trivial nofun
    · exact sound.setState_self atPc _ (by simp [free, TaskPc.ownState])
    · rintro child ⟨⟩
      exact ⟨rfl, rfl⟩
    · rintro child ⟨⟩
      exact sound.free other free
  | fork =>
    have isInit := sound.states cpu other .INIT (by
      rw [atPc]
      exact .inr (.inl ⟨rfl, rfl⟩))
    refine sound.storeState atPc alone (fun _ => id) ?_ nofun rfl nofun (fun _ => id) trivial
      nofun
    exact sound.setState_self atPc _ (by simp [isInit, TaskPc.ownState])
  | wait =>
    have isExit := sound.states cpu other .EXIT (by
      rw [atPc]
      exact .inr (.inr ⟨rfl, rfl⟩))
    refine sound.storeState atPc alone (fun _ => id) ?_ nofun rfl nofun (fun _ => id) trivial ?_
    · exact sound.setState_self atPc _ (by simp [isExit, TaskPc.ownState])
    · intro _
      refine sound.hidden cpu other ?_
      rw [atPc]
      rfl

end
end Sound
end Tnix.Task.Kernel
