import Tnix.Task.KernelSchedule

/-! # The kernel stack of a running task

The page of the kernel stack is on the task's page list from `task_mm_init` until
`clean_mm_source` frees it, and a page on a task's list is not free. -/

namespace Tnix.Task

open Function

def TaskPc.prepares : TaskPc → Option Slot
  | .laterPages child | .forkPush child | .forkContext child | .forkReady child => some child
  | _ => none

def CpuPc.prepares (pc : CpuPc) : Option Slot := pc.taskPc.bind TaskPc.prepares

theorem forks_of_prepares {pc : CpuPc} {child : Slot} (prepares : pc.prepares = some child) :
    pc.forks = some child := by
  cases pc with
  | task slot task =>
    cases task with
    | laterPages | forkPush | forkContext | forkReady => exact prepares
    | _ => cases prepares
  | _ => cases prepares

namespace Kernel

variable {Cpu Page : Type} {kernel next : Kernel Cpu Page}

/-! ## The page lists -/

namespace Partitioned

theorem congr (partitioned : kernel.Partitioned) (inuse : next.inuse = kernel.inuse)
    (pagesHead : next.pagesHead = kernel.pagesHead) (pageHead : next.pageHead = kernel.pageHead)
    (loose : next.loose = kernel.loose) : next.Partitioned := by
  rcases kernel with ⟨⟩
  rcases next with ⟨⟩
  dsimp only at inuse pagesHead pageHead loose
  subst inuse pagesHead pageHead loose
  exact ⟨partitioned.freeNodup, partitioned.free, partitioned.headNodup, partitioned.head,
    partitioned.headDisjoint, partitioned.looseNodup, partitioned.loose,
    partitioned.looseDisjoint⟩

theorem not_free (partitioned : kernel.Partitioned) {page : Page}
    (inuse : kernel.inuse page = true) : page ∉ kernel.pagesHead := by
  intro free
  simp [partitioned.free page free] at inuse

variable [DecidableEq Page]

theorem inuse_update {page other : Page} {mark value : Bool} (different : other ≠ page)
    (marked : kernel.inuse other = value) :
    update kernel.inuse page mark other = value := by
  rw [update_of_ne different, marked]

section
variable (partitioned : kernel.Partitioned)
include partitioned

omit [DecidableEq Page] in
theorem heads : OwnedLists kernel.pageHead := ⟨partitioned.headNodup, partitioned.headDisjoint⟩

variable {page : Page} {rest : List Page}

omit [DecidableEq Page] in
theorem fresh (list : kernel.pagesHead = page :: rest) :
    page ∉ rest ∧ page ∉ kernel.loose ∧ ∀ slot, page ∉ kernel.pageHead slot := by
  have nodup := partitioned.freeNodup
  have notInuse := partitioned.free page (by simp [list])
  rw [list] at nodup
  refine ⟨(List.nodup_cons.mp nodup).1, ?_, ?_⟩
  · intro loose
    simp [partitioned.loose page loose] at notInuse
  · intro slot member
    simp [partitioned.head slot page member] at notInuse

theorem alloc (list : kernel.pagesHead = page :: rest) :
    { kernel with
      inuse := update kernel.inuse page true
      pagesHead := rest
      loose := page :: kernel.loose }.Partitioned := by
  rcases partitioned.fresh list with ⟨notRest, notLoose, notHead⟩
  have nodup := partitioned.freeNodup
  rw [list] at nodup
  constructor
  · exact (List.nodup_cons.mp nodup).2
  · intro other member
    have different : other ≠ page := fun same => notRest (same ▸ member)
    exact inuse_update different (partitioned.free other (by simp [list, member]))
  · exact partitioned.headNodup
  · intro slot other member
    have different : other ≠ page := fun same => notHead slot (same ▸ member)
    exact inuse_update different (partitioned.head slot other member)
  · exact partitioned.headDisjoint
  · exact List.nodup_cons.mpr ⟨notLoose, partitioned.looseNodup⟩
  · intro other member
    by_cases same : other = page
    · simp [same]
    · exact inuse_update same (partitioned.loose other (by simpa [same] using member))
  · intro slot other member
    rcases List.mem_cons.mp member with rfl | member
    · exact notHead slot
    · exact partitioned.looseDisjoint slot other member

theorem free_loose (loose : page ∈ kernel.loose) :
    { kernel with
      inuse := update kernel.inuse page false
      pagesHead := kernel.pagesHead ++ [page]
      loose := kernel.loose.erase page }.Partitioned := by
  have notFree := partitioned.not_free (partitioned.loose page loose)
  constructor
  · exact partitioned.freeNodup.append (List.nodup_singleton page) (by simpa using notFree)
  · intro other member
    by_cases same : other = page
    · simp [same]
    · exact inuse_update same (partitioned.free other (by simpa [same] using member))
  · exact partitioned.headNodup
  · intro slot other member
    have different : other ≠ page :=
      fun same => partitioned.looseDisjoint slot page loose (same ▸ member)
    exact inuse_update different (partitioned.head slot other member)
  · exact partitioned.headDisjoint
  · exact partitioned.looseNodup.erase page
  · intro other member
    rcases partitioned.looseNodup.mem_erase_iff.mp member with ⟨different, before⟩
    exact inuse_update different (partitioned.loose other before)
  · exact fun slot other member =>
      partitioned.looseDisjoint slot other (List.mem_of_mem_erase member)

theorem allocForTask {slot : Slot} (allocates : kernel.allocPageForTask slot = some (page, next)) :
    next.Partitioned := by
  unfold allocPageForTask allocPage at allocates
  split at allocates
  case h_1 => cases allocates
  case h_2 first rest list =>
    cases allocates
    rcases partitioned.fresh list with ⟨notRest, notLoose, notHead⟩
    have nodup := partitioned.freeNodup
    rw [list] at nodup
    have heads := @OwnedLists.push _ _ _ slot first _ partitioned.heads notHead
    constructor
    · exact (List.nodup_cons.mp nodup).2
    · intro other inRest
      have different : other ≠ first := fun same => notRest (same ▸ inRest)
      have before : other ∈ kernel.pagesHead := list ▸ List.mem_cons_of_mem first inRest
      exact inuse_update different (partitioned.free other before)
    · exact heads.nodup
    · intro index other inHead
      by_cases same : other = first
      · simp [same]
      · rcases OwnedLists.mem_push.mp inHead with before | ⟨_, isFirst⟩
        · exact inuse_update same (partitioned.head index other before)
        · exact absurd isFirst same
    · exact heads.unique
    · exact partitioned.looseNodup
    · intro other isLoose
      have different : other ≠ first := fun same => notLoose (same ▸ isLoose)
      exact inuse_update different (partitioned.loose other isLoose)
    · intro index other isLoose inHead
      rcases OwnedLists.mem_push.mp inHead with before | ⟨_, rfl⟩
      · exact partitioned.looseDisjoint index other isLoose before
      · exact notLoose isLoose

theorem clean {slot : Slot} (list : kernel.pageHead slot = page :: rest) :
    { kernel.setPageHead slot rest with
      inuse := update kernel.inuse page false
      pagesHead := kernel.pagesHead ++ [page] }.Partitioned := by
  have inHead : page ∈ kernel.pageHead slot := by simp [list]
  have notFree := partitioned.not_free (partitioned.head slot page inHead)
  have isRest : (kernel.pageHead slot).erase page = rest := by rw [list, List.erase_cons_head]
  have heads := @OwnedLists.erase _ _ _ slot page _ _ partitioned.heads
  rw [isRest] at heads
  have member : ∀ index other, other ∈ update kernel.pageHead slot rest index →
      other ∈ kernel.pageHead index ∧ other ≠ page := by
    rw [← isRest]
    exact fun index other => (partitioned.heads.mem_erase inHead).mp
  constructor
  · exact partitioned.freeNodup.append (List.nodup_singleton page) (by simpa using notFree)
  · intro other isFree
    by_cases same : other = page
    · simp [same]
    · exact inuse_update same (partitioned.free other (by
        simpa [same] using isFree))
  · exact heads.nodup
  · intro index other inNew
    rcases member index other inNew with ⟨before, different⟩
    exact inuse_update different (partitioned.head index other before)
  · exact heads.unique
  · exact partitioned.looseNodup
  · intro other isLoose
    have different : other ≠ page := by
      rintro rfl
      exact partitioned.looseDisjoint slot other isLoose inHead
    exact inuse_update different (partitioned.loose other isLoose)
  · exact fun index other isLoose inNew =>
      partitioned.looseDisjoint index other isLoose (member index other inNew).1

omit [DecidableEq Page] in
theorem clear (slot : Slot) :
    (kernel.setPageHead slot []).Partitioned := by
  have fewer := @OwnedLists.sublist_update _ _ kernel.pageHead slot _ _ (List.nil_sublist _)
  have heads := partitioned.heads.of_sublist fewer
  constructor
  · exact partitioned.freeNodup
  · exact partitioned.free
  · exact heads.nodup
  · exact fun index other inNew => partitioned.head index other ((fewer index).subset inNew)
  · exact heads.unique
  · exact partitioned.looseNodup
  · exact partitioned.loose
  · exact fun index other isLoose inNew =>
      partitioned.looseDisjoint index other isLoose ((fewer index).subset inNew)

theorem pages {self : Slot} {pc after : TaskPc} (pages : Pages self kernel pc next after) :
    next.Partitioned := by
  cases pages with
  | alloc list => exact partitioned.alloc list
  | free loose inuse => exact partitioned.free_loose loose
  | allocForTask place allocates => exact partitioned.allocForTask allocates
  | stack allocates => exact (partitioned.allocForTask allocates).congr rfl rfl rfl rfl
  | clean list inuse => exact partitioned.clean list

end
end Partitioned

/-! ## The invariant -/

def Stacked (kernel : Kernel Cpu Page) (slot : Slot) : Prop :=
  ∃ page ∈ kernel.pageHead slot, kernel.kstack slot = some page

def Live (kernel : Kernel Cpu Page) (slot : Slot) : Prop :=
  kernel.state slot ≠ .FREE ∧ kernel.state slot ≠ .INIT

/-- Slots with a task keep their kernel stack on their list, and so no task gets
past `clean_mm_source`. -/
structure StackOk (kernel : Kernel Cpu Page) : Prop where
  partitioned : kernel.Partitioned
  stacked : ∀ slot, kernel.Live slot → kernel.Stacked slot
  prepared : ∀ cpu slot, (kernel.pc cpu).prepares = some slot → kernel.Stacked slot
  current : ∀ cpu slot, kernel.curTask cpu = some slot → kernel.Live slot
  noExit : ∀ slot, kernel.state slot ≠ .EXIT
  noExitState : ∀ cpu slot, kernel.pc cpu ≠ .task slot .exitState

/-- The condition on runs: `clean_mm_source` does not free the page of the kernel
stack it runs on. -/
def KeepsStack (kernel : Kernel Cpu Page) (label : Label Cpu Page) : Prop :=
  ∀ slot page rest, kernel.pc label.cpu = .task slot .cleanPages →
    kernel.pageHead slot = page :: rest → kernel.kstack slot ≠ some page

/-- What a step may store to the state of a slot before any task exits. -/
inductive StateMove (kernel next : Kernel Cpu Page) (slot : Slot) : Prop
  | same (same : next.state slot = kernel.state slot)
  | live (live : next.Live slot) (stacked : next.Stacked slot)
      (notExit : next.state slot ≠ .EXIT)
  | init (free : kernel.state slot = .FREE) (init : next.state slot = .INIT)

namespace StackOk

variable {slot : Slot}

theorem allocForTask_keeps [DecidableEq Page] {page : Page}
    (allocates : kernel.allocPageForTask slot = some (page, next)) :
    page ∈ next.pageHead slot ∧ next.kstack = kernel.kstack ∧
      ∀ index, kernel.pageHead index ⊆ next.pageHead index := by
  unfold allocPageForTask allocPage at allocates
  split at allocates
  case h_1 => cases allocates
  case h_2 first rest list =>
    cases allocates
    refine ⟨by simp, rfl, fun index => ?_⟩
    by_cases same : index = slot
    · subst same
      simp
    · simp [same]

theorem initial (boot : kernel.Boot) : kernel.StackOk := by
  have pc : ∀ cpu, kernel.pc cpu = .schedLock 0 := fun cpu => congrFun boot.pc cpu
  constructor
  · exact boot.partitioned
  · intro slot isLive
    by_cases isFirst : slot = 0
    · rw [isFirst]
      exact boot.kstack
    · exact absurd (by simp [boot.state, isFirst]) isLive.1
  · intro cpu slot prepares
    rw [pc] at prepares
    cases prepares
  · intro cpu slot current
    rw [boot.curTask] at current
    cases current
  · intro slot
    simp only [boot.state]
    split <;> simp
  · intro cpu slot
    rw [pc]
    exact nofun

theorem freesLeft (ok : kernel.StackOk) (sound : kernel.Sound) (cpu : Cpu) :
    kernel.FreesLeft cpu := by
  intro slot child atPc
  have isExit := sound.states cpu child .EXIT (expects_of_reaps (by rw [atPc]; rfl))
  exact absurd isExit (ok.noExit child)

variable [DecidableEq Cpu]

section
variable (ok : kernel.StackOk)
include ok

theorem step (cpu : Cpu) (pc : CpuPc) (pcs : next.pc = update kernel.pc cpu pc)
    (partitioned : next.Partitioned) (keeps : ∀ slot, (kernel.Live slot ∨ ∃ other, other ≠ cpu ∧
      (kernel.pc other).prepares = some slot) → kernel.Stacked slot → next.Stacked slot)
    (prepares : ∀ slot, pc.prepares = some slot → next.Stacked slot)
    (states : ∀ slot, StateMove kernel next slot)
    (current : ∀ other slot, next.curTask other = some slot →
      kernel.curTask other = some slot ∨ kernel.Live slot)
    (notExitState : ∀ slot, pc ≠ .task slot .exitState) : next.StackOk := by
  have live : ∀ slot, kernel.Live slot → next.Live slot := by
    intro slot isLive
    cases states slot with
    | same same => rwa [Live, same]
    | live live => exact live
    | init free => exact absurd free isLive.1
  constructor
  · exact partitioned
  · intro slot isLive
    cases states slot with
    | same same =>
      rw [Live, same] at isLive
      exact keeps slot (.inl isLive) (ok.stacked slot isLive)
    | live _ stacked => exact stacked
    | init _ init => exact absurd init isLive.2
  · intro other slot prepared
    by_cases same : other = cpu
    · rw [pcs, same, update_self] at prepared
      exact prepares slot prepared
    · rw [pcs, update_of_ne same] at prepared
      exact keeps slot (.inr ⟨other, same, prepared⟩) (ok.prepared other slot prepared)
  · intro other slot isCurrent
    rcases current other slot isCurrent with before | isLive
    · exact live slot (ok.current other slot before)
    · exact live slot isLive
  · intro slot
    cases states slot with
    | same same =>
      rw [same]
      exact ok.noExit slot
    | live _ _ notExit => exact notExit
    | init _ init => simp [init]
  · intro other slot
    by_cases same : other = cpu
    · rw [pcs, same, update_self]
      exact notExitState slot
    · rw [pcs, update_of_ne same]
      exact ok.noExitState other slot

variable {cpu : Cpu} {slot self : Slot} {pc after : TaskPc}

theorem quiet {pc : CpuPc} (pcs : next.pc = update kernel.pc cpu pc)
    (state : next.state = kernel.state) (inuse : next.inuse = kernel.inuse)
    (pagesHead : next.pagesHead = kernel.pagesHead) (pageHead : next.pageHead = kernel.pageHead)
    (loose : next.loose = kernel.loose) (kstack : next.kstack = kernel.kstack)
    (prepares : ∀ slot, pc.prepares = some slot → (kernel.pc cpu).prepares = some slot)
    (current : ∀ other slot, next.curTask other = some slot → kernel.curTask other = some slot ∨
      kernel.Live slot)
    (notExitState : ∀ slot, pc ≠ .task slot .exitState) : next.StackOk := by
  have keeps : ∀ slot, kernel.Stacked slot → next.Stacked slot := by
    intro slot stacked
    rwa [Stacked, pageHead, kstack]
  exact ok.step cpu pc pcs (ok.partitioned.congr inuse pagesHead pageHead loose)
    (fun slot _ => keeps slot)
    (fun slot prepared => keeps slot (ok.prepared cpu slot (prepares slot prepared)))
    (fun slot => .same (congrFun state slot)) current notExitState

/-! ## Steps -/

theorem quietTask (atPc : kernel.pc cpu = .task slot pc)
    (pcs : next.pc = update kernel.pc cpu (.task slot after))
    (same : next.state = kernel.state ∧ next.inuse = kernel.inuse ∧
      next.pagesHead = kernel.pagesHead ∧ next.pageHead = kernel.pageHead ∧
      next.loose = kernel.loose ∧ next.kstack = kernel.kstack ∧ next.curTask = kernel.curTask)
    (prepares : ∀ child, after.prepares = some child → pc.prepares = some child)
    (notExitState : after ≠ .exitState) : next.StackOk := by
  rcases same with ⟨state, inuse, pagesHead, pageHead, loose, kstack, curTask⟩
  refine ok.quiet pcs state inuse pagesHead pageHead loose kstack ?_ ?_ ?_
  · intro child prepared
    rw [atPc]
    exact prepares child prepared
  · rw [curTask]
    exact fun _ _ => .inl
  · rintro index ⟨⟩
    exact notExitState rfl

omit [DecidableEq Cpu] in
theorem live_of_runs (current : kernel.curTask cpu = some self) :
    kernel.Stacked self :=
  ok.stacked self (ok.current cpu self current)

theorem move (atPc : kernel.pc cpu = .task slot pc) (current : kernel.curTask cpu = some self)
    (moves : kernel.Move self pc after) : (kernel.setPc cpu (.task slot after)).StackOk := by
  refine ok.quietTask atPc rfl ⟨rfl, rfl, rfl, rfl, rfl, rfl, rfl⟩ ?_ ?_
  · intro child prepares
    cases moves with
    | pagesDone => exact prepares
    | @wakeupDone chan index after done => cases after <;> cases prepares
    | _ => cases prepares
  · intro isExit
    cases moves with
    | cleanDone none =>
      -- the page of the stack is still on the list
      rcases ok.live_of_runs current with ⟨page, member, _⟩
      simp [none] at member
    | @wakeupDone chan index after done => cases after <;> cases isExit
    | _ => cases isExit

theorem storeState {other : Slot} {pc : CpuPc} {new : TaskState} (prepares : pc.prepares = none)
    (notExitState : ∀ slot, pc ≠ .task slot .exitState)
    (moved : (new = .READY ∨ new = .SLEEP ∨ new = .RUN) ∧ kernel.Stacked other ∨
      kernel.state other = .FREE ∧ new = .INIT) :
    ((kernel.setState other new).setPc cpu pc).StackOk := by
  refine ok.step cpu _ rfl (ok.partitioned.congr rfl rfl rfl rfl) (fun _ _ => id) ?_ ?_ ?_ ?_
  · intro child prepared
    simp [prepares] at prepared
  · intro index
    by_cases same : index = other
    · subst same
      rcases moved with ⟨rfl | rfl | rfl, stacked⟩ | ⟨free, rfl⟩
      · exact .live (by simp [Live]) stacked (by simp)
      · exact .live (by simp [Live]) stacked (by simp)
      · exact .live (by simp [Live]) stacked (by simp)
      · exact .init free (by simp)
    · exact .same (by simp [same])
  · exact fun _ _ => .inl
  · exact notExitState

theorem stores (sound : kernel.Sound) {other : Slot} {old new : TaskState}
    (atPc : kernel.pc cpu = .task slot pc) (current : kernel.curTask cpu = some self)
    (stores : kernel.Stores self pc other old new after) :
    ((kernel.setState other new).setPc cpu (.task slot after)).StackOk := by
  have stacked := ok.live_of_runs current
  cases stores with
  | yield => exact ok.storeState rfl nofun (.inl ⟨.inl rfl, stacked⟩)
  | sleep => exact ok.storeState rfl nofun (.inl ⟨.inr (.inl rfl), stacked⟩)
  | exit => exact absurd atPc (ok.noExitState cpu slot)
  | wakeup asleep =>
    have isLive : kernel.Live other := by simp [Live, asleep]
    exact ok.storeState rfl nofun (.inl ⟨.inl rfl, ok.stacked other isLive⟩)
  | alloc free => exact ok.storeState rfl nofun (.inr ⟨free, rfl⟩)
  | fork =>
    have prepared : kernel.Stacked other := ok.prepared cpu other (by rw [atPc]; rfl)
    exact ok.storeState rfl nofun (.inl ⟨.inl rfl, prepared⟩)
  | wait =>
    have isExit := sound.states cpu other .EXIT (expects_of_reaps (by rw [atPc]; rfl))
    exact absurd isExit (ok.noExit other)

end

variable (ok : kernel.StackOk)
include ok

variable (sound : kernel.Sound)
include sound

theorem pages [DecidableEq Page] {cpu : Cpu}
    {self : Slot} {choice : Choice Page} {pc after : TaskPc}
    (allowed : kernel.KeepsStack ⟨cpu, choice⟩) (atPc : kernel.pc cpu = .task slot pc)
    (current : kernel.curTask cpu = some self) (pages : Pages self kernel pc next after) :
    (next.setPc cpu (.task slot after)).StackOk := by
  rcases sound.self_eq atPc current with rfl
  have partitioned : (next.setPc cpu (.task self after)).Partitioned :=
    (ok.partitioned.pages pages).congr rfl rfl rfl rfl
  have prepared : ∀ child, pc.prepares = some child → kernel.Stacked child := by
    intro child prepares
    refine ok.prepared cpu child ?_
    rw [atPc]
    exact prepares
  cases pages with
  | alloc | free =>
    exact ok.step cpu _ rfl partitioned (fun _ _ => id) (by rintro _ ⟨⟩) (fun _ => .same rfl)
      (fun _ _ => .inl) (by rintro _ ⟨⟩)
  | allocForTask place allocates =>
    rcases allocPageForTask_same allocates with ⟨state, _, _, pcs, curTask⟩
    rcases allocForTask_keeps allocates with ⟨_, kstack, grows⟩
    have keeps : ∀ index, kernel.Stacked index → next.Stacked index := by
      rintro index ⟨stack, member, isStack⟩
      exact ⟨stack, grows index member, by rw [kstack, isStack]⟩
    refine ok.step cpu (.task self pc) ?_ partitioned (fun index _ => keeps index) ?_
      (fun index => .same (congrFun state index)) ?_ ?_
    · rw [setPc, pcs]
    · exact fun child prepares => keeps child (prepared child prepares)
    · intro other index isCurrent
      exact .inl (curTask ▸ isCurrent)
    · rintro index ⟨⟩
      rcases place with ⟨isRun, _⟩ | isStack | isLater
      · cases isRun
      · cases isStack
      · cases isLater
  | @stack allocated page child allocates =>
    rcases allocPageForTask_same allocates with ⟨state, _, _, pcs, curTask⟩
    rcases allocForTask_keeps allocates with ⟨inHead, kstack, grows⟩
    have here : (allocated.setStack child page).Stacked child :=
      ⟨page, inHead, by simp⟩
    have keeps : ∀ index, kernel.Stacked index →
        (allocated.setStack child page).Stacked index := by
      rintro index ⟨stack, member, isStack⟩
      by_cases same : index = child
      · rwa [same]
      · exact ⟨stack, grows index member, by simp [same, kstack, isStack]⟩
    refine ok.step cpu (.task self (.laterPages child)) ?_ partitioned
      (fun index _ => keeps index) ?_ (fun index => .same (congrFun state index)) ?_ (by rintro _ ⟨⟩)
    · simp [pcs]
    · rintro index ⟨⟩
      exact here
    · intro other index isCurrent
      exact .inl (curTask ▸ isCurrent)
  | @clean page rest list inuse =>
    refine ok.step cpu _ rfl partitioned ?_ (by rintro _ ⟨⟩) (fun _ => .same rfl) (fun _ _ => .inl)
      (by rintro _ ⟨⟩)
    rintro index _ ⟨stack, member, isStack⟩
    refine ⟨stack, ?_, isStack⟩
    by_cases same : index = self
    · subst same
      have notFirst : stack ≠ page := by
        rintro rfl
        exact allowed index stack rest atPc list isStack
      simpa [list, notFirst] using member
    · simpa [same] using member

theorem taskInit {cpu : Cpu} {self child : Slot}
    (atPc : kernel.pc cpu = .task slot (.taskInit child)) :
    ((((kernel.setParent child self).setChilds child []).setPageHead child []).setPc cpu
      (.task slot (.stackPage child))).StackOk := by
  have forks : (kernel.pc cpu).forks = some child := by
    rw [atPc]
    rfl
  have isInit := sound.states cpu child .INIT (by
    rw [atPc]
    exact .inr (.inl ⟨rfl, rfl⟩))
  have cleared : (kernel.setPageHead child []).Partitioned := ok.partitioned.clear child
  refine ok.step cpu _ rfl (cleared.congr rfl rfl rfl rfl) ?_ nofun (fun _ => .same rfl)
    (fun _ _ => .inl) nofun
  rintro index needed ⟨stack, member, isStack⟩
  have notChild : index ≠ child := by
    rintro rfl
    rcases needed with isLive | ⟨other, different, prepares⟩
    · exact isLive.2 isInit
    · exact different (sound.forks other cpu index (forks_of_prepares prepares) forks)
  exact ⟨stack, by simpa [notChild] using member, isStack⟩

theorem transition [DecidableEq Page] {label : Label
    Cpu Page} (allowed : kernel.KeepsStack label) (moves : kernel.Transition label.cpu next) :
    next.StackOk := by
  cases moves with
  | move atPc current moves => exact ok.move atPc current moves
  | locks atPc current gets free =>
    refine ok.quietTask atPc rfl ⟨rfl, rfl, rfl, rfl, rfl, rfl, rfl⟩ ?_ ?_
    · intro child prepares
      cases gets <;> cases prepares
    · rintro rfl
      cases gets
  | puts atPc current puts held =>
    refine ok.quietTask atPc rfl ⟨rfl, rfl, rfl, rfl, rfl, rfl, rfl⟩ ?_ ?_
    · intro child prepares
      cases puts with
      | @putLock after => cases after <;> cases prepares
      | _ => cases prepares
    · intro isExit
      cases puts with
      | @putLock after => cases after <;> cases isExit
      | _ => cases isExit
  | stores atPc current stores => exact ok.stores sound atPc current stores
  | pages atPc current pages => exact ok.pages sound allowed atPc current pages
  | sleepChan atPc | chanNull atPc | allocTq atPc | allocPutTq atPc | exitMove atPc
  | waitRemove atPc =>
    exact ok.quietTask atPc rfl ⟨rfl, rfl, rfl, rfl, rfl, rfl, rfl⟩ (by rintro _ ⟨⟩) (by rintro ⟨⟩)
  | forkPush atPc | forkContext atPc =>
    exact ok.quietTask atPc rfl ⟨rfl, rfl, rfl, rfl, rfl, rfl, rfl⟩ (fun _ => id) (by rintro ⟨⟩)
  | taskInit atPc => exact ok.taskInit sound atPc
  | switch atPc | schedLock atPc | schedReady atPc | schedPass atPc | schedPut atPc =>
    exact ok.quiet rfl rfl rfl rfl rfl rfl rfl (by rintro _ ⟨⟩) (fun _ _ => .inl) (by rintro _ ⟨⟩)
  | schedState atPc =>
    have isReady := sound.states label.cpu _ .READY (by
      rw [atPc]
      exact ⟨rfl, rfl⟩)
    refine ok.storeState rfl (by rintro _ ⟨⟩) (.inl ⟨.inr (.inr rfl), ok.stacked _ ?_⟩)
    simp [Live, isReady]
  | @schedCur slot atPc =>
    have isRun := sound.states label.cpu slot .RUN (by
      rw [atPc]
      exact ⟨rfl, rfl⟩)
    refine ok.quiet rfl rfl rfl rfl rfl rfl rfl (by rintro _ ⟨⟩) ?_ (by rintro _ ⟨⟩)
    intro other index isCurrent
    by_cases same : other = label.cpu
    · have isSlot : slot = index := by
        simpa [same] using isCurrent
      exact .inr (by simp [Live, ← isSlot, isRun])
    · exact .inl (by simpa [same] using isCurrent)
  | @schedSwitch slot atPc =>
    refine ok.quiet rfl rfl rfl rfl rfl rfl rfl ?_ (fun _ _ => .inl) ?_
    · intro child prepares
      cases isContext : kernel.ctx slot <;> rw [isContext] at prepares <;> cases prepares
    · intro index isExit
      cases isContext : kernel.ctx slot <;> rw [isContext] at isExit <;> cases isExit
  | schedClear atPc =>
    refine ok.quiet rfl rfl rfl rfl rfl rfl rfl (by rintro _ ⟨⟩) ?_ (by rintro _ ⟨⟩)
    intro other index isCurrent
    by_cases same : other = label.cpu
    · simp [same] at isCurrent
    · exact .inl (by simpa [same] using isCurrent)

end StackOk

variable {Cpu Page : Type} [DecidableEq Page] {kernel next : Kernel Cpu Page}

/-! ## Running kernel stacks -/

/-- The kernel stack of every current task is in use, off the free list, and not
what `alloc_page` hands out. -/
def StacksInUse (kernel : Kernel Cpu Page) : Prop :=
  ∀ cpu slot, kernel.curTask cpu = some slot → ∃ page, kernel.kstack slot = some page ∧
    kernel.inuse page = true ∧ page ∉ kernel.pagesHead ∧
    ∀ allocated, kernel.allocPage = some allocated → allocated.1 ≠ page

theorem allocPage_mem {allocated : Page × Kernel Cpu Page}
    (allocates : kernel.allocPage = some allocated) : allocated.1 ∈ kernel.pagesHead := by
  unfold allocPage at allocates
  split at allocates
  case h_1 => cases allocates
  case h_2 page rest list =>
    cases allocates
    simp [list]

theorem StackOk.stacksInUse (ok : kernel.StackOk) : kernel.StacksInUse := by
  intro cpu slot current
  rcases ok.stacked slot (ok.current cpu slot current) with ⟨page, member, isStack⟩
  have inuse := ok.partitioned.head slot page member
  have notFree := ok.partitioned.not_free inuse
  refine ⟨page, isStack, inuse, notFree, ?_⟩
  rintro allocated allocates rfl
  exact notFree (allocPage_mem allocates)

theorem not_stacksInUse_of_clean [DecidableEq Cpu] {label : Label Cpu Page} {slot : Slot}
    {page : Page} {rest : List Page} (atPc : kernel.pc label.cpu = .task slot .cleanPages)
    (current : kernel.curTask label.cpu = some slot)
    (list : kernel.pageHead slot = page :: rest) (isStack : kernel.kstack slot = some page)
    (stepped : (machine Cpu Page).step kernel label = some next) : ¬ next.StacksInUse := by
  have taken : kernel.taskStep label.cpu slot slot label.choice .cleanPages = some next := by
    simpa only [machine, cpuStep, atPc, current] using stepped
  simp only [taskStep, list] at taken
  rcases Option.map_eq_some_iff.mp taken with ⟨freed, frees, rfl⟩
  rcases freePage_eq frees with ⟨_, rfl⟩
  intro inUse
  rcases inUse label.cpu slot current with ⟨stack, isStackNext, inuse, _⟩
  have same : page = stack := Option.some.inj (isStack.symm.trans isStackNext)
  simp [← same] at inuse

/-- In every run in which `clean_mm_source` never frees the kernel stack it runs on,
the kernel stacks of current tasks are in use. -/
theorem running_stack_not_free [DecidableEq Cpu]
    (reached : (machine Cpu Page).Reaches KeepsStack kernel) : kernel.StacksInUse := by
  have holds : kernel.Sound ∧ kernel.StackOk := by
    apply reached.invariant fun kernel => kernel.Sound ∧ kernel.StackOk
    · exact fun start boot => ⟨.initial boot, .initial boot⟩
    · rintro kernel label next ⟨sound, ok⟩ allowed stepped
      have moves := transition_of_step stepped
      exact ⟨sound.transition (ok.freesLeft sound label.cpu) moves,
        ok.transition sound allowed moves⟩
  exact holds.2.stacksInUse

def cleanRun : List (Label (Fin 2) Nat) :=
  go 0 6 ++ [⟨0, .fork⟩] ++ go 0 9 ++ [⟨0, .allocPageForTask⟩] ++ go 0 5 ++ go 1 10 ++
    [⟨1, .kill⟩] ++ go 1 1

theorem running_stack_not_free_cleanRun :
    ∃ kernel, (machine (Fin 2) Nat).run exampleStart cleanRun = some kernel ∧
      kernel.curTask 1 = some 1 ∧ kernel.kstack 1 = some 2 ∧ kernel.pagesHead = [1] ∧
      kernel.StacksInUse := by
  have started : (machine (Fin 2) Nat).Reaches KeepsStack exampleStart :=
    .initial initial_exampleStart
  rcases (⟨_, rfl, rfl, rfl, rfl⟩ : ∃ kernel,
      (machine (Fin 2) Nat).run exampleStart cleanRun = some kernel ∧
        kernel.curTask 1 = some 1 ∧ kernel.kstack 1 = some 2 ∧ kernel.pagesHead = [1]) with
    ⟨kernel, ran, current, stack, free⟩
  refine ⟨kernel, ran, current, stack, free, running_stack_not_free (started.run ?_ ran)⟩
  repeat first | exact trivial | refine ⟨nofun, ?_⟩

def killRun : List (Label (Fin 2) Nat) :=
  forkRun ++ [⟨1, .kill⟩] ++ go 1 1

theorem killRun_frees_running_stack :
    ∃ kernel, (machine (Fin 2) Nat).Reachable kernel ∧ kernel.curTask 1 = some 1 ∧
      kernel.kstack 1 = some 1 ∧ 1 ∈ kernel.pagesHead ∧ ¬ kernel.StacksInUse := by
  have started : (machine (Fin 2) Nat).Reachable exampleStart :=
    .initial initial_exampleStart
  rcases (⟨_, rfl, rfl, rfl, rfl⟩ : ∃ kernel,
      (machine (Fin 2) Nat).run exampleStart killRun = some kernel ∧
        kernel.curTask 1 = some 1 ∧ kernel.kstack 1 = some 1 ∧ kernel.pagesHead = [2, 1]) with
    ⟨kernel, ran, current, stack, free⟩
  refine ⟨kernel, started.run ran, current, stack, by simp [free], ?_⟩
  intro inUse
  rcases inUse 1 1 current with ⟨page, isStack, _, notFree, _⟩
  have same : page = 1 := Option.some.inj (isStack.symm.trans stack)
  exact notFree (by simp [same, free])

end Kernel
end Tnix.Task
