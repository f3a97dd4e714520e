import Tnix.Mem.OwnershipInvariant

/-! # Pages and objects in every reachable state

What the invariant says of the pages, of the lists and of the objects of the slots. -/

namespace Tnix.Mem

variable {Task : Type} {defs : SlotDefs SlotName} {stop : Nat} {state next : MemState Task}
  {free : List Nat} {p : Nat}

inductive PageState (Task : Type)
  | reserved
  | free
  /-- In use, and on the list of a task or on none. -/
  | allocated (holder : Option Task)

/-- The page is in a state: `inuse`, the list of the free pages and the lists of the tasks
agree on it. -/
structure InState (stop : Nat) (state : MemState Task) (free : List Nat) (p : Nat)
    (pageState : PageState Task) : Prop where
  reserved : Pages.reserved stop p = true ↔ pageState = .reserved
  isFree : p ∈ free ↔ pageState = .free
  inuse : state.mem.pages.inuse p = false ↔ pageState = .free
  held : ∀ t, p ∈ state.pagesOf t ↔ pageState = .allocated (some t)

structure PagesSafe (defs : SlotDefs SlotName) (stop : Nat) (state : MemState Task)
    (free : List Nat) [DecidableEq Task] : Prop where
  /-- The list of the free pages and those of the tasks are circular lists. -/
  freeList : state.mem.pages.links.Circular (.head none) (free.map .page)
  taskList : ∀ t, state.mm t ≠ none →
    state.mem.pages.links.Circular (.head (some t)) ((state.pagesOf t).map .page)
  /-- Every page is in one state. -/
  partition : ∀ p < NPAGE, ∃ pageState, InState stop state free p pageState ∧
    ∀ other, InState stop state free p other → other = pageState
  /-- `alloc_page` returns a page that is free. -/
  allocPage : ∀ {p after}, state.mem.pages.allocPage Memory.zeroPage = .ok (p, after) →
    p < NPAGE ∧ InState stop state free p .free
  /-- `clean_mm_source` returns the pages of the task, and those of the slots in which only the
  task has objects. -/
  cleanMmSource : ∀ {t mm}, state.mm t = some mm → ∃ next given,
    state.cleanMmSource t = .ok next ∧
      next.mem.pages.links.Circular (.head none)
        ((free ++ state.pagesOf t ++ given).map .page) ∧
      ∀ p, p ∈ given ↔ (∃ obj ∈ MemOk.objsOf state t mm, obj.1 = p) ∧
        ∀ name obj, state.mem.Live defs name obj → obj.1 = p → obj ∈ MemOk.objsOf state t mm

namespace MemOk

theorem inState_unique {pageState other : PageState Task}
    (isState : InState stop state free p pageState) (isOther : InState stop state free p other) :
    other = pageState := by
  cases other with
  | reserved => exact (isState.reserved.mp (isOther.reserved.mpr rfl)).symm
  | free => exact (isState.isFree.mp (isOther.isFree.mpr rfl)).symm
  | allocated holder =>
    cases holder with
    | some t => exact ((isState.held t).mp ((isOther.held t).mpr rfl)).symm
    | none =>
      cases pageState with
      | reserved => exact isOther.reserved.mp (isState.reserved.mpr rfl)
      | free => exact isOther.isFree.mp (isState.isFree.mpr rfl)
      | allocated holder =>
        cases holder with
        | none => rfl
        | some t => exact (isOther.held t).mp ((isState.held t).mpr rfl)

section
variable (ok : MemOk defs stop state free)
include ok

theorem inState_free (isFree : p ∈ free) : p < NPAGE ∧ InState stop state free p .free := by
  have holds := ok.backed.holds
  have usable := holds.usable holds.isFree isFree
  refine ⟨usable.1, ⟨?_, iff_of_true isFree rfl, ?_, ?_⟩⟩
  · rw [usable.2]
    exact iff_of_false Bool.false_ne_true (by rintro ⟨⟩)
  · exact iff_of_true ((holds.inuse p usable.1).mpr isFree) rfl
  · intro t
    refine iff_of_false ?_ (by rintro ⟨⟩)
    intro isPage
    have isList := MemState.listsOf_task free (ok.accounts.hasMm_of_page isPage)
    cases holds.threaded.once holds.isFree isList isFree isPage

theorem inState_task {t : Task} (isPage : p ∈ state.pagesOf t) :
    InState stop state free p (.allocated (some t)) := by
  have holds := ok.backed.holds
  have isList := MemState.listsOf_task free (ok.accounts.hasMm_of_page isPage)
  have usable := holds.usable isList isPage
  have notFree : p ∉ free := fun isFree => by
    cases holds.threaded.once holds.isFree isList isFree isPage
  refine ⟨?_, iff_of_false notFree (by rintro ⟨⟩), ?_, ?_⟩
  · rw [usable.2]
    exact iff_of_false Bool.false_ne_true (by rintro ⟨⟩)
  · rw [holds.inuse p usable.1]
    exact iff_of_false notFree (by rintro ⟨⟩)
  · intro other
    constructor
    · intro isOther
      have otherList := MemState.listsOf_task free (ok.accounts.hasMm_of_page isOther)
      cases holds.threaded.once isList otherList isPage isOther
      rfl
    · rintro ⟨⟩
      exact isPage

theorem inState_other (inMemory : p < NPAGE)
    (notFree : p ∉ free) (notTask : ∀ t, p ∉ state.pagesOf t) :
    InState stop state free p (if Pages.reserved stop p then .reserved else .allocated none) := by
  have notInuse := mt (ok.backed.holds.inuse p inMemory).mp notFree
  by_cases isReserved : Pages.reserved stop p = true
  · rw [if_pos isReserved]
    exact ⟨iff_of_true isReserved rfl, iff_of_false notFree (by rintro ⟨⟩),
      iff_of_false notInuse (by rintro ⟨⟩),
      fun t => iff_of_false (notTask t) (by rintro ⟨⟩)⟩
  · rw [if_neg isReserved]
    exact ⟨iff_of_false isReserved (by rintro ⟨⟩), iff_of_false notFree (by rintro ⟨⟩),
      iff_of_false notInuse (by rintro ⟨⟩),
      fun t => iff_of_false (notTask t) (by rintro ⟨⟩)⟩

theorem exists_inState (inMemory : p < NPAGE) :
    ∃ pageState, InState stop state free p pageState := by
  by_cases isFree : p ∈ free
  · exact ⟨_, (ok.inState_free isFree).2⟩
  · by_cases isTask : ∃ t, p ∈ state.pagesOf t
    · rcases isTask with ⟨t, isPage⟩
      exact ⟨_, ok.inState_task isPage⟩
    · exact ⟨_, ok.inState_other inMemory isFree fun t isPage => isTask ⟨t, isPage⟩⟩

end

variable [DecidableEq Task]

theorem boot {content : Nat → Nat → Chunk SlotName} {pages : Pages Task (Nat → Chunk SlotName)}
    (isInit : (Pages.static content).initMemory stop = .ok pages) :
    MemOk defs stop (.boot pages) (freePages stop NPAGE) := by
  rcases @initMemory_holds Task _ _ stop content with ⟨found, isFound, holds⟩
  cases isFound.symm.trans isInit
  have sameLists : (MemState.boot pages).listsOf (freePages stop NPAGE) =
      onlyFree Task (freePages stop NPAGE) := by
    funext h
    cases h with
    | none => rfl
    | some t =>
      rw [onlyFree, Function.update_of_ne (by rintro ⟨⟩)]
      rfl
  rw [← sameLists] at holds
  refine ⟨⟨holds, ⟨⟨?_, ?_, ?_, ?_⟩, ?_⟩, ?_, List.nodup_nil, ?_, ?_⟩,
    ⟨?_, ?_, fun t => List.nodup_nil, ?_, fun t _ => ⟨rfl, rfl⟩⟩⟩
  · exact fun _ => rfl
  · rintro name cur q i _ ⟨⟩
  · rintro name cur q _ ⟨⟩
  · rintro name name' cur cur' q _ _ ⟨⟩
  · exact fun _ => iff_of_true rfl rfl
  · rintro q ⟨⟩
  · rintro q ⟨⟩
  · intro name obj
    refine iff_of_false ?_ (by rintro ⟨_, ⟨⟩⟩)
    rintro ⟨_, _, ⟨⟩, _⟩
  · exact fun t obj => iff_of_false (by rintro ⟨⟩) (by rintro ⟨⟩)
  · exact fun t obj => iff_of_false List.not_mem_nil (by rintro ⟨⟩)
  · rintro name obj t ⟨⟩

theorem of_reachable (reached : (memMachine Task defs stop).Reachable state) :
    ∃ free, MemOk defs stop state free := by
  refine reached.invariant (fun state => ∃ free, MemOk defs stop state free) ?_ ?_
  · rintro state ⟨content, pages, isInit, rfl⟩
    exact ⟨_, boot isInit⟩
  · rintro state label next ⟨free, ok⟩ _ stepped
    rcases Option.bind_eq_some_iff.mp stepped with ⟨result, acted, isNext⟩
    cases result with
    | error fault => cases isNext
    | ok after =>
      cases isNext
      exact ok.act acted

end MemOk

variable [DecidableEq Task]

/-- In every state, each page is reserved, free or allocated, and on at most one list. -/
theorem pagesSafe_of_reachable (reached : (memMachine Task defs stop).Reachable state) :
    ∃ free, PagesSafe defs stop state free := by
  rcases MemOk.of_reachable reached with ⟨free, ok⟩
  have holds := ok.backed.holds
  refine ⟨free, holds.threaded.circular holds.isFree, ?_, ?_, ?_, ?_⟩
  · intro t hasMm
    exact holds.threaded.circular (MemState.listsOf_task free hasMm)
  · intro p inMemory
    rcases ok.exists_inState inMemory with ⟨pageState, isState⟩
    exact ⟨pageState, isState, fun other isOther => MemOk.inState_unique isState isOther⟩
  · intro p after allocated
    cases free with
    | nil =>
      rw [holds.allocPage_nil] at allocated
      cases allocated
    | cons first free =>
      rcases @Holds.allocPage_cons _ _ _ _ _ _ _ Memory.zeroPage _ holds with ⟨_, isFirst, _⟩
      cases isFirst.symm.trans allocated
      exact ok.inState_free List.mem_cons_self
  · intro t mm isMm
    rcases ok.cleanMmSource isMm with ⟨next, given, cleaned, okNext, _, isGiven⟩
    have holdsNext := okNext.backed.holds
    exact ⟨next, given, cleaned, holdsNext.threaded.circular holdsNext.isFree, isGiven⟩

theorem MemOk.mmInit_boot {content : Nat → Nat → Chunk SlotName}
    {pages : Pages Task (Nat → Chunk SlotName)}
    (isInit : (Pages.static content).initMemory stop = .ok pages)
    (someFree : freePages stop NPAGE ≠ []) (t : Task) :
    ∃ obj after, (MemState.boot pages).mmInit defs t = .ok after ∧ after.mm t = some obj ∧
      after.vmas t = [] ∧ after.pagesOf t = [] ∧
      ∀ name obj', after.mem.Live defs name obj' ↔ name = .mmStructSlot ∧ obj' = obj := by
  have ok := @boot Task defs stop _ content pages isInit
  have ends := ok.backed.slotted.allocSlot ok.backed.holds .mmStructSlot
  generalize isResult : (MemState.boot pages).mem.allocSlot defs .mmStructSlot = result at ends
  cases ends with
  | noMemory noPages _ _ => exact absurd noPages someFree
  | exhausted full =>
    have isFull : 0 = defs.chunks .mmStructSlot := full 0 (defs.num_pos _)
    exact absurd isFull (Nat.ne_of_lt (defs.chunks_pos _))
  | @found obj mem lists' free' done =>
    refine ⟨obj, _, by rw [MemState.mmInit, isResult]; rfl, ?_, ?_, ?_, ?_⟩
    · exact Function.update_self _ _ _
    · exact Function.update_self _ _ _
    · exact Function.update_self _ _ _
    · intro name obj'
      refine (done.live name obj').trans (or_iff_left ?_)
      rintro ⟨_, _, ⟨⟩, _⟩

def kernelEnd : Nat := PHY_MEMORY + 0x200000

theorem freePages_kernelEnd : freePages kernelEnd NPAGE ≠ [] := by
  intro isNil
  have member : NPAGE - 1 ∈ freePages kernelEnd NPAGE := mem_freePages.mpr (by decide)
  rw [isNil] at member
  cases member

theorem reachable_mmInit : ∃ (state : MemState Unit) (obj : Obj),
    (memMachine Unit kernelSlots kernelEnd).Reachable state ∧ state.mm () = some obj ∧
      state.vmas () = [] ∧ state.pagesOf () = [] ∧
      ∀ name obj', state.mem.Live kernelSlots name obj' ↔ name = .mmStructSlot ∧ obj' = obj := by
  rcases @initMemory_holds Unit _ _ kernelEnd fun _ => Memory.zeroPage with ⟨pages, isInit, _⟩
  rcases @MemOk.mmInit_boot _ kernelSlots _ _ _ _ isInit freePages_kernelEnd () with
    ⟨obj, state, isState, found⟩
  have stepped : (memMachine Unit kernelSlots kernelEnd).step (.boot pages) (.mmInit ()) =
      some state := by
    show ((MemState.boot pages).act kernelSlots (.mmInit ())).bind Except.toOption = some state
    have noMm : (MemState.boot pages).mm () = none := rfl
    rw [MemState.act, if_pos noMm, isState]
    rfl
  exact ⟨state, obj, .step (.initial ⟨_, pages, isInit, rfl⟩) trivial stepped, found⟩

theorem pagesSafe_mmInit : ∃ (state : MemState Unit) (free : List Nat),
    state.mm () ≠ none ∧ PagesSafe kernelSlots kernelEnd state free := by
  rcases reachable_mmInit with ⟨state, obj, reached, isMm, _⟩
  rcases pagesSafe_of_reachable reached with ⟨free, safe⟩
  exact ⟨state, free, by rw [isMm]; rintro ⟨⟩, safe⟩

/-- `clean_mm_source` also returns the page that the `mm_struct` of the task was in. -/
theorem cleanMmSource_returns_slot_page : ∃ (state next : MemState Unit) (p : Nat),
    (memMachine Unit kernelSlots kernelEnd).Reachable state ∧
      state.cleanMmSource () = .ok next ∧ p ∉ state.pagesOf () ∧
      state.mem.pages.inuse p = true ∧ next.mem.pages.inuse p = false := by
  rcases reachable_mmInit with ⟨state, obj, reached, isMm, noVmas, noPages, live⟩
  rcases MemOk.of_reachable reached with ⟨free, ok⟩
  rcases ok.cleanMmSource isMm with ⟨next, given, cleaned, okNext, _, isGiven⟩
  have objs : MemOk.objsOf state () obj = [obj] := by rw [MemOk.objsOf, noVmas]; rfl
  have isLive := (live .mmStructSlot obj).mpr ⟨rfl, rfl⟩
  have returned : obj.1 ∈ given := by
    rw [isGiven, objs]
    refine ⟨⟨obj, List.mem_cons_self, rfl⟩, ?_⟩
    intro name obj' isLive' _
    rw [((live name obj').mp isLive').2]
    exact List.mem_cons_self
  rcases isLive with ⟨cur, inArray, isPage, _⟩
  have loose := ok.backed.slotted.loose inArray isPage
  refine ⟨state, next, obj.1, reached, cleaned, ?_, ?_, ?_⟩
  · rw [noPages]
    exact List.not_mem_nil
  · rw [← Bool.not_eq_false, ok.backed.holds.inuse _ loose.inMemory]
    exact loose.off _ _ ok.backed.holds.isFree
  · rw [okNext.backed.holds.inuse _ loose.inMemory]
    exact List.mem_append_right _ returned

/-! ## Slots -/

/-- What is known of the slots; an object is live while it has an owner. -/
structure SlotsSafe (defs : SlotDefs SlotName) (state : MemState Task) [DecidableEq Task] :
    Prop where
  /-- The count of a slot is the number of its chunks in use. -/
  refc : ∀ name, ∀ cur < defs.num name,
    (state.mem.slots name cur).refc.toNat = state.mem.used defs name cur
  /-- A slot has a page in use exactly when its count is not zero. -/
  page : ∀ name, ∀ cur < defs.num name, 0 < (state.mem.slots name cur).refc.toNat ↔
    ∃ p < NPAGE, (state.mem.slots name cur).slot = some p ∧ state.mem.pages.inuse p = true
  /-- A live object knows its slot. -/
  belong : ∀ {name obj holder}, state.owner name obj = some holder →
    ∃ cur < defs.num name, (state.mem.slots name cur).slot = some obj.1 ∧
      (state.mem.pages.content obj.1 obj.2).belong = some (name, cur)
  /-- What `alloc_name` returns is not live. -/
  fresh : ∀ {name obj mem}, state.mem.allocSlot defs name = .ok (obj, mem) →
    ∀ name', state.owner name' obj = none
  /-- `alloc_name` ends, and it panics only if all slots are full or if there is no page for a
  slot that has none. -/
  alloc : ∀ {name fault}, state.mem.allocSlot defs name = .error fault →
    (fault = .panic ("alloc_" ++ defs.label name ++ ": slot exhausted") ∧
      ∀ cur < defs.num name, (state.mem.slots name cur).refc.toNat = defs.chunks name) ∨
    (fault = .panic "alloc_page: memory exhausted" ∧
      (∃ cur < defs.num name, (state.mem.slots name cur).refc = 0) ∧
      ∀ p < NPAGE, state.mem.pages.inuse p = true)
  /-- `free_name` of a live object gives back the page exactly when no other is in it. -/
  free : ∀ {name obj holder}, state.owner name obj = some holder →
    ∃ mem, state.mem.freeSlot obj = .ok mem ∧ (mem.pages.inuse obj.1 = false ↔
      ∀ name' other holder', state.owner name' other = some holder' → other.1 = obj.1 →
        other = obj)

theorem slotsSafe_of_reachable (reached : (memMachine Task defs stop).Reachable state) :
    SlotsSafe defs state := by
  rcases MemOk.of_reachable reached with ⟨free, ok⟩
  have holds := ok.backed.holds
  have slotted := ok.backed.slotted
  have inuse {p : Nat} (loose : Loose stop (state.listsOf free) p) :
      state.mem.pages.inuse p = true := by
    rw [← Bool.not_eq_false, holds.inuse p loose.inMemory]
    exact loose.off _ _ holds.isFree
  refine ⟨fun name cur => slotted.refc, ?_, ?_, ?_, ?_, ?_⟩
  · intro name cur inArray
    constructor
    · intro positive
      have hasPage : (state.mem.slots name cur).slot ≠ none := by
        rw [ne_eq, slotted.null inArray]
        intro isZero
        rw [isZero] at positive
        cases positive
      rcases Option.ne_none_iff_exists'.mp hasPage with ⟨p, isPage⟩
      have loose := slotted.loose inArray isPage
      exact ⟨p, loose.inMemory, isPage, inuse loose⟩
    · rintro ⟨p, _, isPage, _⟩
      refine Nat.pos_of_ne_zero ?_
      intro isZero
      exact slotted.refc_pos inArray isPage (UInt32.toNat_inj.mp isZero)
  · intro name obj holder isOwner
    rcases (ok.backed.live name obj).mpr ⟨holder, isOwner⟩ with
      ⟨cur, inArray, isPage, inPage, isInuse⟩
    exact ⟨cur, inArray, isPage, slotted.belong inArray isPage inPage isInuse⟩
  · intro name obj mem isOk name'
    rcases ok.allocSlot isOk with ⟨_, _, done⟩
    exact ok.owner_of_fresh (done.fresh name')
  · intro name fault isError
    have ends := slotted.allocSlot holds name
    rw [isError] at ends
    cases ends with
    | exhausted full => exact .inl ⟨rfl, full⟩
    | @noMemory cur noPages inArray isZero =>
      refine .inr ⟨rfl, ⟨cur, inArray, isZero⟩, ?_⟩
      intro p inMemory
      rw [← Bool.not_eq_false, holds.inuse p inMemory, noPages]
      exact List.not_mem_nil
  · intro name obj holder isOwner
    have isLive := (ok.backed.live name obj).mpr ⟨holder, isOwner⟩
    rcases slotted.freeSlot holds isLive with ⟨mem, lists', free', isFreed, done⟩
    have inMemory : obj.1 < NPAGE := by
      rcases isLive with ⟨cur, inArray, isPage, _⟩
      exact (slotted.loose inArray isPage).inMemory
    refine ⟨mem, isFreed, ?_⟩
    rw [done.holds.inuse _ inMemory]
    rcases done.lists with ⟨rfl, _, name', other, otherLive, samePage, different⟩ | ⟨rfl, _, alone⟩
    · refine iff_of_false ?_ ?_
      · rcases isLive with ⟨cur, inArray, isPage, _⟩
        exact (slotted.loose inArray isPage).off _ _ holds.isFree
      · intro alone
        rcases (ok.backed.live name' other).mp otherLive with ⟨holder', otherOwner⟩
        exact different (alone name' other holder' otherOwner samePage)
    · refine iff_of_true (List.mem_append_right _ List.mem_cons_self) ?_
      intro name' other holder' otherOwner
      exact alone name' other ((ok.backed.live name' other).mpr ⟨holder', otherOwner⟩)

theorem slotsSafe_mmInit : ∃ state : MemState Unit,
    state.mm () ≠ none ∧ SlotsSafe kernelSlots state := by
  rcases reachable_mmInit with ⟨state, obj, reached, isMm, _⟩
  exact ⟨state, by rw [isMm]; rintro ⟨⟩, slotsSafe_of_reachable reached⟩

def singleSlots : SlotDefs SlotName where
  label := kernelSlots.label
  num _ := 2
  size _ := PGSIZE
  num_pos _ := by decide
  chunks_pos _ := by decide

def lastPage : Nat := PHY_TOP - PGSIZE

theorem freePages_lastPage {p : Nat} : p ∈ freePages lastPage NPAGE ↔ p = NPAGE - 1 := by
  rw [mem_freePages, Pages.reserved, decide_eq_false_iff_not, lastPage, PHY_TOP, PHY_MEMORY,
    PHY_SIZE, alignUp, PGSIZE, NPAGE, PHY_SIZE, PGSIZE]
  omega

theorem singleSlots_chunks (name : SlotName) : singleSlots.chunks name = 1 := by
  cases name <;> decide

theorem length_freePages_lastPage : ∃ p, freePages lastPage NPAGE = [p] := by
  have nodup : (freePages lastPage NPAGE).Nodup := List.nodup_range.filter _
  have member := freePages_lastPage.mpr rfl
  cases isFree : freePages lastPage NPAGE with
  | nil =>
    rw [isFree] at member
    cases member
  | cons p free =>
    cases free with
    | nil => exact ⟨p, rfl⟩
    | cons q rest =>
      have isP := freePages_lastPage.mp (isFree ▸ List.mem_cons_self)
      have isQ := freePages_lastPage.mp
        (isFree ▸ List.mem_cons_of_mem p (List.mem_cons_self : q ∈ q :: rest))
      rw [isFree, isP, isQ] at nodup
      simp at nodup

theorem alloc_lastPage {pages : Pages Unit (Nat → Chunk SlotName)} {p : Nat}
    (ok : MemOk singleSlots lastPage (.boot pages) [p]) :
    ∃ obj mem lists', (MemState.boot pages).mem.allocSlot singleSlots .fileSlot = .ok (obj, mem) ∧
      Allocated singleSlots lastPage (MemState.boot pages).mem ((MemState.boot pages).listsOf [p])
        [p] .fileSlot obj mem lists' [] := by
  have ends := ok.backed.slotted.allocSlot ok.backed.holds .fileSlot
  generalize isResult : (MemState.boot pages).mem.allocSlot singleSlots .fileSlot = result at ends
  cases ends with
  | noMemory noPages _ _ => cases noPages
  | exhausted full =>
    have isFull : 0 = singleSlots.chunks .fileSlot := full 0 (by decide)
    rw [singleSlots_chunks] at isFull
    cases isFull
  | @found obj mem lists' free' done =>
    rcases done.lists with ⟨rfl, rfl⟩ | ⟨isFree, rfl⟩
    · -- The page of the object would still be free.
      rcases (done.live .fileSlot obj).mpr (.inl ⟨rfl, rfl⟩) with ⟨cur, inArray, isPage, _⟩
      rcases done.slots isPage with wasPage | ⟨_, inFree⟩
      · cases wasPage
      · exact absurd inFree ((done.slotted.loose inArray isPage).off none _ rfl)
    · cases isFree
      exact ⟨obj, mem, _, rfl, done⟩

/-- With no page left, `alloc_file_slot` panics although one of its slots has no object. -/
theorem allocSlot_panics_before_full : ∃ state : MemState Unit,
    (memMachine Unit singleSlots lastPage).Reachable state ∧
      state.mem.allocSlot singleSlots .fileSlot = .error (.panic "alloc_page: memory exhausted") ∧
      ∃ cur < singleSlots.num .fileSlot,
        (state.mem.slots .fileSlot cur).refc.toNat ≠ singleSlots.chunks .fileSlot := by
  rcases @initMemory_holds Unit _ _ lastPage fun _ => Memory.zeroPage with ⟨pages, isInit, _⟩
  rcases length_freePages_lastPage with ⟨p, isFree⟩
  have ok := @MemOk.boot Unit singleSlots _ _ _ _ isInit
  rw [isFree] at ok
  rcases alloc_lastPage ok with ⟨obj, mem, lists', allocated, done⟩
  have stepped : (memMachine Unit singleSlots lastPage).step (.boot pages) (.alloc .fileSlot) =
      some ({ MemState.boot pages with mem := mem }.setOwner .fileSlot obj (some none)) := by
    show ((MemState.boot pages).act singleSlots (.alloc .fileSlot)).bind Except.toOption = _
    rw [MemState.act, allocated]
    rfl
  have onlyObj : ∀ name obj', mem.Live singleSlots name obj' → obj' = obj := by
    intro name obj' isLive
    rcases (done.live name obj').mp isLive with ⟨_, isObj⟩ | ⟨_, _, ⟨⟩, _⟩
    exact isObj
  refine ⟨_, .step (.initial ⟨_, pages, isInit, rfl⟩) trivial stepped, ?_⟩
  have ends := done.slotted.allocSlot done.holds .fileSlot
  show mem.allocSlot singleSlots .fileSlot = _ ∧ _
  generalize mem.allocSlot singleSlots .fileSlot = result at ends
  cases ends with
  | @noMemory cur _ inArray isZero =>
    refine ⟨rfl, cur, inArray, ?_⟩
    show (mem.slots .fileSlot cur).refc.toNat ≠ _
    rw [isZero, singleSlots_chunks]
    decide
  | exhausted full =>
    have notZero (cur : Nat) (inArray : cur < 2) : (mem.slots .fileSlot cur).refc ≠ 0 := by
      intro isZero
      have isFull := full cur inArray
      rw [isZero, singleSlots_chunks] at isFull
      cases isFull
    rcases done.slotted.exists_live (by decide) (notZero 0 (by decide)) with ⟨first, isP, live⟩
    rcases done.slotted.exists_live (by decide) (notZero 1 (by decide)) with ⟨second, isQ, live'⟩
    rw [onlyObj _ first live] at isP
    rw [onlyObj _ second live'] at isQ
    cases (done.slotted.once (by decide) (by decide) isP isQ).2
  | @found other after lists'' free'' found =>
    rcases (found.live .fileSlot other).mpr (.inl ⟨rfl, rfl⟩) with
      ⟨cur, inArray, isPage, inPage, _⟩
    rcases found.slots isPage with wasPage | ⟨_, inFree⟩
    · rcases done.slotted.exists_live inArray (done.slotted.refc_pos inArray wasPage) with
        ⟨⟨q, i⟩, isQ, live⟩
      have inPage' : i < singleSlots.chunks .fileSlot := by
        rcases live with ⟨_, _, _, less, _⟩
        exact less
      rw [singleSlots_chunks] at inPage inPage'
      cases wasPage.symm.trans isQ
      have sameObj : other = (other.1, i) := Prod.ext rfl (by omega)
      exact absurd (sameObj ▸ live) (found.fresh .fileSlot)
    · cases inFree

end Tnix.Mem
