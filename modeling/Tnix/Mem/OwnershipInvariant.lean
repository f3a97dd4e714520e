import Tnix.Mem.Ownership

/-! # Every page has one owner

The invariant of the memory: the lists are what the records say, the slots are sound, and every
live object has one owner. -/

namespace Tnix.Mem

open Function List Owner
variable {Task : Type} {defs : SlotDefs SlotName} {stop : Nat}
  {mem after : Memory Task SlotName} {lists lists' : Lists Task} {free free' raw : List Nat}
  {owner : Owner Task} {name : SlotName} {obj : Obj} {t : Task} {p : Nat}

theorem Owner.set_self (owner : Owner Task) (holder : Option (Option Task)) :
    owner.set name obj holder name obj = holder := by
  simp only [set, update_self]

theorem Owner.set_other (owner : Owner Task) (holder : Option (Option Task)) {name' : SlotName}
    {obj' : Obj} (different : ¬ (name' = name ∧ obj' = obj)) :
    owner.set name obj holder name' obj' = owner name' obj' := by
  by_cases sameName : name' = name
  · subst sameName
    have other : obj' ≠ obj := fun same => different ⟨rfl, same⟩
    simp only [set, update_self]
    exact update_of_ne other _ _
  · simp only [set, update_of_ne sameName]

/-! ## Memory -/

/-- The pages and the slots, the pages that other code has and the objects that somebody has. -/
structure Backed (defs : SlotDefs SlotName) (stop : Nat) (mem : Memory Task SlotName)
    (lists : Lists Task) (free raw : List Nat) (owner : Owner Task) : Prop where
  holds : Holds stop mem.pages lists free
  slotted : Slotted defs stop mem lists
  rawLoose : ∀ p ∈ raw, Loose stop lists p
  rawNodup : raw.Nodup
  rawSlot : ∀ p ∈ raw, ∀ {name cur}, cur < defs.num name → (mem.slots name cur).slot ≠ some p
  live : ∀ name obj, mem.Live defs name obj ↔ ∃ holder, owner name obj = some holder

namespace Backed

variable [DecidableEq Task]

theorem allocPage (backed : Backed defs stop mem lists (p :: free) raw owner) :
    ∃ pages, mem.pages.allocPage Memory.zeroPage = .ok (p, pages) ∧
      Backed defs stop { mem with pages := pages } (update lists none (some free)) free
        (p :: raw) owner := by
  rcases @Holds.allocPage_cons _ _ _ _ _ _ _ Memory.zeroPage _ backed.holds with
    ⟨pages, allocated, holds, loose, _, content⟩
  have wasFree : ∀ q, Loose stop lists q → q ≠ p := by
    rintro q looseQ rfl
    exact looseQ.off _ _ backed.holds.isFree mem_cons_self
  rcases backed.slotted.frame
    (fun inArray isQ => (congrFun content _).trans
      (update_of_ne (wasFree _ (backed.slotted.loose inArray isQ)) _ _))
    (fun inArray isQ => (backed.slotted.loose inArray isQ).shrink backed.holds.isFree) with
    ⟨slotted, live⟩
  refine ⟨pages, allocated, holds, slotted, ?_, ?_, ?_,
    fun name obj => (live name obj).trans (backed.live name obj)⟩
  · intro q member
    rcases mem_cons.mp member with rfl | member
    · exact loose
    · exact (backed.rawLoose q member).shrink backed.holds.isFree
  · exact nodup_cons.mpr
      ⟨fun member => wasFree p (backed.rawLoose p member) rfl, backed.rawNodup⟩
  · intro q member name cur inArray isQ
    rcases mem_cons.mp member with rfl | member
    · exact wasFree q (backed.slotted.loose inArray isQ) rfl
    · exact backed.rawSlot q member inArray isQ

section
variable (backed : Backed defs stop mem lists free raw owner)
include backed

theorem freePage (isRaw : p ∈ raw) :
    ∃ pages, mem.pages.freePage p = .ok pages ∧
      Backed defs stop { mem with pages := pages }
        (update lists none (some (free ++ [p]))) (free ++ [p]) (raw.erase p) owner := by
  rcases backed.holds.freePage (backed.rawLoose p isRaw) with ⟨pages, freed, holds, _, content⟩
  have notSlot {name : SlotName} {cur q : Nat} (inArray : cur < defs.num name)
      (isQ : (mem.slots name cur).slot = some q) : q ≠ p := by
    rintro rfl
    exact backed.rawSlot q isRaw inArray isQ
  rcases backed.slotted.frame (fun _ _ => congrFun content _)
    (fun inArray isQ => (backed.slotted.loose inArray isQ).grow backed.holds.isFree
      (notSlot inArray isQ)) with ⟨slotted, live⟩
  refine ⟨pages, freed, holds, slotted, ?_, backed.rawNodup.erase p, ?_,
    fun name obj => (live name obj).trans (backed.live name obj)⟩
  · intro q member
    rcases (backed.rawNodup.mem_erase_iff).mp member with ⟨different, wasRaw⟩
    exact (backed.rawLoose q wasRaw).grow backed.holds.isFree different
  · intro q member name cur inArray
    exact backed.rawSlot q (mem_of_mem_erase member) inArray

omit [DecidableEq Task] in
theorem relist {pages : Pages Task (Nat → Chunk SlotName)} {lists' : Lists Task} {free' : List Nat}
    (holds : Holds stop pages lists' free') (loose : ∀ q, Loose stop lists q → Loose stop lists' q ∧
      pages.content q = mem.pages.content q) :
    Backed defs stop { mem with pages := pages } lists' free' raw owner := by
  rcases backed.slotted.frame
    (fun inArray isQ => (loose _ (backed.slotted.loose inArray isQ)).2)
    (fun inArray isQ => (loose _ (backed.slotted.loose inArray isQ)).1) with ⟨slotted, live⟩
  exact ⟨holds, slotted, fun q member => (loose q (backed.rawLoose q member)).1, backed.rawNodup,
    backed.rawSlot, fun name obj => (live name obj).trans (backed.live name obj)⟩

omit [DecidableEq Task] in
theorem store (notSlot : ∀ {name cur}, cur < defs.num name → (mem.slots name cur).slot ≠ some p)
    (content : Nat → Chunk SlotName) :
    Backed defs stop { mem with
      pages := { mem.pages with content := update mem.pages.content p content } }
      lists free raw owner := by
  have same {name : SlotName} {cur q : Nat} (inArray : cur < defs.num name)
      (isQ : (mem.slots name cur).slot = some q) :
      update mem.pages.content p content q = mem.pages.content q := by
    refine update_of_ne ?_ _ _
    rintro rfl
    exact notSlot inArray isQ
  have framed : Slotted defs stop { mem with
      pages := { mem.pages with content := update mem.pages.content p content } } lists ∧
      _ := backed.slotted.frame same fun inArray isQ => backed.slotted.loose inArray isQ
  have holds := backed.holds
  exact ⟨⟨holds.threaded, holds.isFree, holds.inuse, holds.usable⟩, framed.1, backed.rawLoose,
    backed.rawNodup, backed.rawSlot,
    fun name obj => (framed.2 name obj).trans (backed.live name obj)⟩

theorem allocated (done : Allocated defs stop mem lists free name obj after lists' free')
    (holder : Option Task) :
    lists' = update lists none (some free') ∧
      Backed defs stop after lists' free' raw (owner.set name obj (some holder)) := by
  have same : lists' = update lists none (some free') := by
    rcases done.lists with ⟨rfl, rfl⟩ | ⟨_, isLists⟩
    · rw [← backed.holds.isFree, update_eq_self]
    · exact isLists
  have stillLoose : ∀ q, Loose stop lists q → Loose stop lists' q := by
    intro q loose
    rcases done.lists with ⟨rfl, rfl⟩ | ⟨rfl, rfl⟩
    · exact loose
    · exact loose.shrink backed.holds.isFree
  refine ⟨same, done.holds, done.slotted, fun q member => stillLoose q (backed.rawLoose q member),
    backed.rawNodup, ?_, ?_⟩
  · intro q member name' cur inArray isQ
    rcases done.slots isQ with wasQ | ⟨rfl, inFree⟩
    · exact backed.rawSlot q member inArray wasQ
    · exact (backed.rawLoose _ member).off _ _ backed.holds.isFree inFree
  · intro name' obj'
    rw [done.live]
    by_cases here : name' = name ∧ obj' = obj
    · rcases here with ⟨rfl, rfl⟩
      rw [set_self]
      exact iff_of_true (.inl ⟨rfl, rfl⟩) ⟨holder, rfl⟩
    · rw [set_other _ _ here, ← backed.live]
      exact or_iff_right here

theorem freed (isLive : mem.Live defs name obj)
    (done : Freed defs stop mem lists free obj after lists' free') :
    lists' = update lists none (some free') ∧
      Backed defs stop after lists' free' raw (owner.set name obj none) := by
  have same : lists' = update lists none (some free') := by
    rcases done.lists with ⟨rfl, rfl, _⟩ | ⟨_, isLists, _⟩
    · rw [← backed.holds.isFree, update_eq_self]
    · exact isLists
  refine ⟨same, done.holds, done.slotted, ?_, backed.rawNodup, ?_, ?_⟩
  · intro q member
    rcases done.lists with ⟨rfl, rfl, _⟩ | ⟨rfl, rfl, _⟩
    · exact backed.rawLoose q member
    · refine (backed.rawLoose q member).grow backed.holds.isFree ?_
      rintro rfl
      rcases isLive with ⟨cur, inArray, isPage, _⟩
      exact backed.rawSlot _ member inArray isPage
  · intro q member name' cur inArray isQ
    exact backed.rawSlot q member inArray (done.slots isQ)
  · intro name' obj'
    rw [done.live]
    by_cases here : name' = name ∧ obj' = obj
    · rcases here with ⟨rfl, rfl⟩
      rw [set_self]
      refine iff_of_false (fun both => both.2 rfl) ?_
      rintro ⟨_, ⟨⟩⟩
    · rw [set_other _ _ here, ← backed.live]
      refine and_iff_left_of_imp ?_
      rintro isLive' rfl
      exact here ⟨backed.slotted.live_inj isLive' isLive, rfl⟩

theorem freedAll {objs : List Obj} {given : List Nat}
    (live : ∀ obj ∈ objs, ∃ name, mem.Live defs name obj)
    (done : FreedAll defs stop mem lists free objs after given) {owner' : Owner Task}
    (disowned : ∀ name obj, (∃ holder, owner' name obj = some holder) ↔ (∃ holder,
      owner name obj = some holder) ∧ obj ∉ objs) :
    Backed defs stop after (update lists none (some (free ++ given))) (free ++ given) raw
      owner' := by
  refine ⟨done.holds, done.slotted, ?_, backed.rawNodup, ?_, ?_⟩
  · intro q member
    refine (backed.rawLoose q member).update ?_
    rw [mem_append]
    rintro (inFree | isGiven)
    · exact (backed.rawLoose q member).off _ _ backed.holds.isFree inFree
    · rcases ((done.given_iff q).mp isGiven).1 with ⟨obj, isObj, rfl⟩
      rcases live obj isObj with ⟨name, cur, inArray, isPage, _⟩
      exact backed.rawSlot _ member inArray isPage
  · intro q member name cur inArray isQ
    exact backed.rawSlot q member inArray (done.slots isQ)
  · intro name obj
    rw [done.live, disowned, backed.live]

theorem forget (t : Task) :
    Backed defs stop mem (update lists (some t) none) free raw owner := by
  have kept : ∀ {h list}, update lists (some t) none h = some list →
      lists h = some list := by
    intro h list isList
    by_cases here : h = some t
    · rw [here, update_self] at isList
      cases isList
    · rwa [update_of_ne here] at isList
  have loose : ∀ q, Loose stop lists q → Loose stop (update lists (some t) none) q :=
    fun q loose => ⟨loose.inMemory, loose.notReserved,
      fun h list isList => loose.off h list (kept isList)⟩
  have holds := backed.holds
  refine backed.relist ⟨⟨fun isList => holds.threaded.circular (kept isList),
    fun isList isList' => holds.threaded.once (kept isList) (kept isList')⟩, ?_, holds.inuse,
    fun isList => holds.usable (kept isList)⟩ fun q looseQ => ⟨loose q looseQ, rfl⟩
  rw [update_of_ne (by rintro ⟨⟩)]
  exact holds.isFree

end
end Backed

/-! ## Tasks -/

/-- The `mm_struct` and the vmas of a task are the objects that it has. -/
structure Accounts (mm : Task → Option Obj) (vmas : Task → List Obj) (pagesOf : Task → List Nat)
    (owner : Owner Task) : Prop where
  mm_iff : ∀ t obj, mm t = some obj ↔ owner .mmStructSlot obj = some (some t)
  vmas_iff : ∀ t obj, obj ∈ vmas t ↔ owner .vmaSlot obj = some (some t)
  nodup : ∀ t, (vmas t).Nodup
  tasks : ∀ name obj t, owner name obj = some (some t) → name = .mmStructSlot ∨ name = .vmaSlot
  gone : ∀ t, mm t = none → vmas t = [] ∧ pagesOf t = []

def MemState.listsOf (state : MemState Task) (free : List Nat) : Lists Task
  | none => some free
  | some t => if (state.mm t).isSome then some (state.pagesOf t) else none

structure MemOk (defs : SlotDefs SlotName) (stop : Nat) (state : MemState Task)
    (free : List Nat) : Prop where
  backed : Backed defs stop state.mem (state.listsOf free) free state.raw state.owner
  accounts : Accounts state.mm state.vmas state.pagesOf state.owner

section
variable {state next : MemState Task}

theorem MemState.listsOf_task (free : List Nat) (hasMm : state.mm t ≠ none) :
    state.listsOf free (some t) = some (state.pagesOf t) := by
  rw [listsOf, if_pos (Option.isSome_iff_ne_none.mpr hasMm)]

variable {pagesOf : Task → List Nat}

theorem Accounts.hasMm_of_page {mm : Task → Option Obj} {vmas : Task → List Obj}
    (accounts : Accounts mm vmas pagesOf owner) (isPage : p ∈ pagesOf t) : mm t ≠ none := by
  intro noMm
  rw [(accounts.gone t noMm).2] at isPage
  cases isPage

theorem Accounts.other {mm : Task → Option Obj} {vmas : Task → List Obj}
    (accounts : Accounts mm vmas pagesOf owner) (noTask : ∀ t, owner name obj ≠ some (some t))
    {holder : Option (Option Task)} (stillNoTask : ∀ t, holder ≠ some (some t)) :
    Accounts mm vmas pagesOf (owner.set name obj holder) := by
  have same : ∀ name' obj' t,
      owner.set name obj holder name' obj' = some (some t) ↔ owner name' obj' = some (some t) := by
    intro name' obj' t
    by_cases here : name' = name ∧ obj' = obj
    · rcases here with ⟨rfl, rfl⟩
      rw [set_self]
      exact iff_of_false (stillNoTask t) (noTask t)
    · rw [set_other _ _ here]
  refine ⟨?_, ?_, accounts.nodup, ?_, accounts.gone⟩
  · intro t obj'
    rw [same]
    exact accounts.mm_iff t obj'
  · intro t obj'
    rw [same]
    exact accounts.vmas_iff t obj'
  · intro name' obj' t isTask
    rw [same] at isTask
    exact accounts.tasks name' obj' t isTask

theorem MemOk.held_ne_slot (ok : MemOk defs stop state free) {holder : Option Task}
    (isHeld : p ∈ state.held holder) {name : SlotName} {cur : Nat} (inArray : cur < defs.num name) :
    (state.mem.slots name cur).slot ≠ some p := by
  cases holder with
  | none => exact ok.backed.rawSlot p isHeld inArray
  | some t =>
    intro isPage
    exact (ok.backed.slotted.loose inArray isPage).off _ _
      (MemState.listsOf_task free (ok.accounts.hasMm_of_page isHeld)) isHeld

variable [DecidableEq Task]

section
variable {mm : Task → Option Obj} {vmas : Task → List Obj} {pagesOf : Task → List Nat}

variable (accounts : Accounts mm vmas pagesOf owner)
include accounts

/-- A change of the vmas of a task by one object. -/
theorem Accounts.setVmas {list : List Obj} {holder : Option (Option Task)} (hasMm : mm t ≠ none)
    (members : ∀ obj', obj' ∈ list ↔ owner.set .vmaSlot obj holder .vmaSlot obj' = some (some t))
    (others : ∀ other, other ≠ t → obj ∉ vmas other ∧ holder ≠ some (some other))
    (nodup : list.Nodup) :
    Accounts mm (update vmas t list) pagesOf (owner.set .vmaSlot obj holder) := by
  refine ⟨?_, ?_, ?_, ?_, ?_⟩
  · intro other obj'
    rw [set_other _ _ (by rintro ⟨⟨⟩, _⟩)]
    exact accounts.mm_iff other obj'
  · intro other obj'
    by_cases isT : other = t
    · subst isT
      rw [update_self]
      exact members obj'
    · rw [update_of_ne isT]
      by_cases isObj : obj' = obj
      · subst isObj
        rw [set_self]
        exact iff_of_false (others other isT).1 (others other isT).2
      · rw [set_other _ _ fun both => isObj both.2]
        exact accounts.vmas_iff other obj'
  · intro other
    by_cases isT : other = t
    · subst isT
      rwa [update_self]
    · rw [update_of_ne isT]
      exact accounts.nodup other
  · intro name obj' other isTask
    by_cases here : name = .vmaSlot ∧ obj' = obj
    · exact .inr here.1
    · rw [set_other _ _ here] at isTask
      exact accounts.tasks name obj' other isTask
  · intro other noMm
    have different : other ≠ t := by
      rintro rfl
      exact hasMm noMm
    rw [update_of_ne different]
    exact accounts.gone other noMm

theorem Accounts.giveVma (fresh : owner .vmaSlot obj = none) (hasMm : mm t ≠ none) :
    Accounts mm (update vmas t (vmas t ++ [obj])) pagesOf
      (owner.set .vmaSlot obj (some (some t))) := by
  have notIn : ∀ other, obj ∉ vmas other := by
    intro other member
    rw [accounts.vmas_iff, fresh] at member
    cases member
  refine accounts.setVmas hasMm (fun obj' => ?_) (fun other isT => ⟨notIn other, ?_⟩) ?_
  · by_cases isObj : obj' = obj
    · subst isObj
      rw [set_self]
      exact iff_of_true (mem_append_right _ mem_cons_self) rfl
    · rw [set_other _ _ fun both => isObj both.2, mem_append, mem_singleton, ← accounts.vmas_iff]
      exact or_iff_left isObj
  · rintro ⟨⟩
    exact isT rfl
  · rw [nodup_append_comm, singleton_append, nodup_cons]
    exact ⟨notIn t, accounts.nodup t⟩

theorem Accounts.takeVma (isVma : obj ∈ vmas t) :
    Accounts mm (update vmas t ((vmas t).erase obj)) pagesOf (owner.set .vmaSlot obj none) := by
  refine accounts.setVmas ?_ (fun obj' => ?_) (fun other isT => ⟨?_, by rintro ⟨⟩⟩)
    ((accounts.nodup t).erase obj)
  · intro noMm
    rw [(accounts.gone t noMm).1] at isVma
    cases isVma
  · rw [(accounts.nodup t).mem_erase_iff]
    by_cases isObj : obj' = obj
    · subst isObj
      rw [set_self]
      exact iff_of_false (fun both => both.1 rfl) (by rintro ⟨⟩)
    · rw [set_other _ _ fun both => isObj both.2, ← accounts.vmas_iff]
      exact and_iff_right isObj
  · intro member
    rw [accounts.vmas_iff] at member isVma
    rw [member] at isVma
    cases isVma
    exact isT rfl

theorem Accounts.setPages (hasMm : mm t ≠ none) (pages : List Nat) :
    Accounts mm vmas (update pagesOf t pages) owner := by
  refine ⟨accounts.mm_iff, accounts.vmas_iff, accounts.nodup, accounts.tasks, ?_⟩
  intro other noMm
  have different : other ≠ t := by
    rintro rfl
    exact hasMm noMm
  rw [update_of_ne different]
  exact accounts.gone other noMm

theorem Accounts.giveMm (fresh : owner .mmStructSlot obj = none) (noMm : mm t = none) :
    Accounts (update mm t (some obj)) (update vmas t [])
      (update pagesOf t []) (owner.set .mmStructSlot obj (some (some t))) := by
  have sameVmas : update vmas t [] = vmas := by
    rw [← (accounts.gone t noMm).1, update_eq_self]
  rw [sameVmas]
  refine ⟨?_, ?_, accounts.nodup, ?_, ?_⟩
  · intro other obj'
    by_cases isT : other = t <;> by_cases isObj : obj' = obj
    · subst isT isObj
      rw [set_self, update_self]
      exact iff_of_true rfl rfl
    · subst isT
      rw [set_other _ _ fun both => isObj both.2, update_self, ← accounts.mm_iff, noMm]
      refine iff_of_false ?_ (by rintro ⟨⟩)
      rintro ⟨⟩
      exact isObj rfl
    · subst isObj
      rw [set_self, update_of_ne isT]
      refine iff_of_false ?_ ?_
      · rw [accounts.mm_iff, fresh]
        rintro ⟨⟩
      · rintro ⟨⟩
        exact isT rfl
    · rw [set_other _ _ fun both => isObj both.2, update_of_ne isT]
      exact accounts.mm_iff other obj'
  · intro other obj'
    rw [set_other _ _ (by rintro ⟨⟨⟩, _⟩)]
    exact accounts.vmas_iff other obj'
  · intro name obj' other isTask
    by_cases here : name = .mmStructSlot ∧ obj' = obj
    · exact .inl here.1
    · rw [set_other _ _ here] at isTask
      exact accounts.tasks name obj' other isTask
  · intro other stillNone
    have different : other ≠ t := by
      rintro rfl
      rw [update_self] at stillNone
      cases stillNone
    rw [update_of_ne different] at stillNone ⊢
    exact accounts.gone other stillNone

theorem Accounts.takeAll : Accounts (update mm t none) (update vmas t []) (update pagesOf t [])
      fun name obj => if owner name obj = some (some t) then none else owner name obj := by
  have kept : ∀ {name obj other}, other ≠ t →
      ((if owner name obj = some (some t) then none else owner name obj) = some (some other) ↔
        owner name obj = some (some other)) := by
    intro name obj other different
    by_cases mine : owner name obj = some (some t)
    · rw [if_pos mine, mine]
      refine iff_of_false (by rintro ⟨⟩) ?_
      rintro ⟨⟩
      exact different rfl
    · rw [if_neg mine]
  have disowned : ∀ {name obj},
      (if owner name obj = some (some t) then none else owner name obj) ≠ some (some t) := by
    intro name obj
    by_cases mine : owner name obj = some (some t)
    · rw [if_pos mine]
      rintro ⟨⟩
    · rw [if_neg mine]
      exact mine
  refine ⟨?_, ?_, ?_, ?_, ?_⟩
  · intro other obj'
    by_cases isT : other = t
    · subst isT
      rw [update_self]
      exact iff_of_false (by rintro ⟨⟩) disowned
    · rw [update_of_ne isT, kept isT]
      exact accounts.mm_iff other obj'
  · intro other obj'
    by_cases isT : other = t
    · subst isT
      rw [update_self]
      exact iff_of_false not_mem_nil disowned
    · rw [update_of_ne isT, kept isT]
      exact accounts.vmas_iff other obj'
  · intro other
    by_cases isT : other = t
    · subst isT
      rw [update_self]
      exact nodup_nil
    · rw [update_of_ne isT]
      exact accounts.nodup other
  · intro name obj' other isTask
    have isT : other ≠ t := by
      rintro rfl
      exact disowned isTask
    exact accounts.tasks name obj' other ((kept isT).mp isTask)
  · intro other noMm
    by_cases isT : other = t
    · subst isT
      rw [update_self, update_self]
      exact ⟨rfl, rfl⟩
    · rw [update_of_ne isT] at noMm ⊢
      rw [update_of_ne isT]
      exact accounts.gone other noMm

end

theorem MemState.listsOf_free (state : MemState Task) (free free' : List Nat) :
    state.listsOf free' = update (state.listsOf free) none (some free') := by
  funext h
  cases h with
  | none => rw [update_self]; rfl
  | some t => rw [update_of_ne (by rintro ⟨⟩)]; rfl

theorem MemState.listsOf_update (mm : Task → Option Obj) (pages : List Nat) (free : List Nat)
    (hasMm : mm t ≠ none) (same : ∀ other, other ≠ t → mm other = state.mm other)
    (isMm : next.mm = mm) (isPages : next.pagesOf = update state.pagesOf t pages) :
    next.listsOf free = update (state.listsOf free) (some t) (some pages) := by
  funext h
  by_cases here : h = some t
  · rw [here, update_self, listsOf_task free (by rw [isMm]; exact hasMm), isPages, update_self]
  · rw [update_of_ne here]
    cases h with
    | none => rfl
    | some other =>
      have different : other ≠ t := fun isT => here (congrArg some isT)
      rw [listsOf, listsOf, isMm, isPages, same other different, update_of_ne different]

namespace MemOk

theorem allocPageForTask (ok : MemOk defs stop state (p :: free)) (hasMm : state.mm t ≠ none) :
    ∃ pages, state.mem.pages.allocPageForTask Memory.zeroPage t = .ok (p, pages) ∧
      MemOk defs stop { state.setPages pages with
        pagesOf := update state.pagesOf t (state.pagesOf t ++ [p]) } free := by
  have isList := MemState.listsOf_task (p :: free) hasMm
  rcases @Holds.allocPageForTask _ _ _ _ _ _ _ _ Memory.zeroPage _ _ ok.backed.holds isList with
    ⟨pages, allocated, holds, content⟩
  have sameLists : MemState.listsOf { state.setPages pages with
      pagesOf := update state.pagesOf t (state.pagesOf t ++ [p]) } free =
      update (update (state.listsOf (p :: free)) none (some free)) (some t)
        (some (state.pagesOf t ++ [p])) := by
    rw [← state.listsOf_free]
    exact MemState.listsOf_update state.mm _ free hasMm (fun _ _ => rfl) rfl rfl
  refine ⟨pages, allocated, ?_, ?_⟩
  · rw [sameLists]
    refine ok.backed.relist holds ?_
    intro q loose
    have notP : q ≠ p := by
      rintro rfl
      exact loose.off _ _ ok.backed.holds.isFree mem_cons_self
    refine ⟨(loose.shrink ok.backed.holds.isFree).update ?_, ?_⟩
    · rw [mem_append, mem_singleton]
      rintro (member | same)
      · exact loose.off _ _ isList member
      · exact notP same
    · rw [content]
      exact update_of_ne notP _ _
  · exact ok.accounts.setPages hasMm _

theorem freePageForTask (ok : MemOk defs stop state free) (isPage : p ∈ state.pagesOf t) :
    ∃ pages, state.mem.pages.freePageForTask p = .ok pages ∧
      MemOk defs stop { state.setPages pages with
        pagesOf := update state.pagesOf t ((state.pagesOf t).erase p) } (free ++ [p]) := by
  have hasMm := ok.accounts.hasMm_of_page isPage
  have isList := MemState.listsOf_task free hasMm
  rcases exists_erase_eq isPage with ⟨before, behind, _, isSplit, erased⟩
  rw [isSplit] at isList
  rcases ok.backed.holds.freePageForTask isList with ⟨pages, freed, holds, content⟩
  have sameLists : MemState.listsOf { state.setPages pages with
      pagesOf := update state.pagesOf t ((state.pagesOf t).erase p) } (free ++ [p]) =
      update (update (state.listsOf free) (some t) (some (before ++ behind))) none
        (some (free ++ [p])) := by
    rw [update_comm (by rintro ⟨⟩), ← state.listsOf_free, erased]
    exact MemState.listsOf_update state.mm _ (free ++ [p]) hasMm (fun _ _ => rfl) rfl rfl
  refine ⟨pages, freed, ?_, ?_⟩
  · rw [sameLists]
    refine ok.backed.relist holds ?_
    intro q loose
    have notIn := loose.off _ _ isList
    have notP : q ≠ p := by
      rintro rfl
      exact notIn (mem_append_right _ mem_cons_self)
    refine ⟨(loose.update ?_).update ?_, by rw [content]⟩
    · intro member
      rw [mem_append] at member notIn
      exact notIn (member.imp_right (mem_cons_of_mem _))
    · rw [mem_append, mem_singleton]
      rintro (member | same)
      · exact loose.off _ _ ok.backed.holds.isFree member
      · exact notP same
  · exact ok.accounts.setPages hasMm _

def objsOf (state : MemState Task) (t : Task) (mm : Obj) : List Obj :=
  state.vmas t ++ [mm]

section
variable (ok : MemOk defs stop state free)
include ok

omit [DecidableEq Task] in
theorem owner_of_objsOf {mm : Obj} (isMm : state.mm t = some mm) (isObj : obj ∈ objsOf state t mm) :
    ∃ name, state.owner name obj = some (some t) := by
  rcases mem_append.mp isObj with isVma | isLast
  · exact ⟨.vmaSlot, (ok.accounts.vmas_iff t obj).mp isVma⟩
  · rw [mem_singleton.mp isLast]
    exact ⟨.mmStructSlot, (ok.accounts.mm_iff t mm).mp isMm⟩

omit [DecidableEq Task] in
theorem objsOf_nodup {mm : Obj} (isMm : state.mm t = some mm) :
    (objsOf state t mm).Nodup := by
  rw [objsOf, nodup_append_comm, singleton_append, nodup_cons]
  refine ⟨?_, ok.accounts.nodup t⟩
  intro isVma
  have asVma := (ok.backed.live .vmaSlot mm).mpr ⟨_, (ok.accounts.vmas_iff t mm).mp isVma⟩
  have asMm := (ok.backed.live .mmStructSlot mm).mpr ⟨_, (ok.accounts.mm_iff t mm).mp isMm⟩
  cases ok.backed.slotted.live_inj asVma asMm

theorem cleanMmSource {mm : Obj} (isMm : state.mm t = some mm) :
    ∃ next given, state.cleanMmSource t = .ok next ∧
      MemOk defs stop next (free ++ state.pagesOf t ++ given) ∧ given.Nodup ∧
      ∀ p, p ∈ given ↔ (∃ obj ∈ objsOf state t mm, obj.1 = p) ∧
        ∀ name obj, state.mem.Live defs name obj → obj.1 = p → obj ∈ objsOf state t mm := by
  have hasMm : state.mm t ≠ none := by rw [isMm]; rintro ⟨⟩
  have isList := MemState.listsOf_task free hasMm
  rcases ok.backed.holds.cleanPages isList with ⟨pages, cleaned, holds, content⟩
  have backed := ok.backed.relist holds fun q loose => by
    refine ⟨(loose.update not_mem_nil).update ?_, congrFun content q⟩
    rw [mem_append]
    rintro (inFree | inList)
    · exact loose.off _ _ ok.backed.holds.isFree inFree
    · exact loose.off _ _ isList inList
  have liveSame : ∀ name obj, Memory.Live defs { state.mem with pages := pages } name obj ↔
      state.mem.Live defs name obj := fun name obj =>
    (backed.live name obj).trans (ok.backed.live name obj).symm
  have objsLive : ∀ obj ∈ objsOf state t mm, ∃ name,
      Memory.Live defs { state.mem with pages := pages } name obj := by
    intro obj isObj
    rcases ok.owner_of_objsOf isMm isObj with ⟨name, isOwner⟩
    exact ⟨name, (backed.live name obj).mpr ⟨_, isOwner⟩⟩
  rcases backed.slotted.freeSlots backed.holds (ok.objsOf_nodup isMm) objsLive with
    ⟨after, given, ran, done⟩
  have disowned : ∀ name obj, (∃ holder, state.disown t name obj = some holder) ↔
      (∃ holder, state.owner name obj = some holder) ∧ obj ∉ objsOf state t mm := by
    intro name obj
    by_cases mine : state.owner name obj = some (some t)
    · rw [MemState.disown, if_pos mine]
      refine iff_of_false (by rintro ⟨_, ⟨⟩⟩) ?_
      rintro ⟨_, notObj⟩
      apply notObj
      rcases ok.accounts.tasks name obj t mine with rfl | rfl
      · cases isMm.symm.trans ((ok.accounts.mm_iff t obj).mpr mine)
        exact mem_append_right _ mem_cons_self
      · exact mem_append_left _ ((ok.accounts.vmas_iff t obj).mpr mine)
    · rw [MemState.disown, if_neg mine]
      refine (and_iff_left_of_imp ?_).symm
      intro isOwned isObj
      rcases ok.owner_of_objsOf isMm isObj with ⟨name', isOwner⟩
      have sameName := ok.backed.slotted.live_inj ((ok.backed.live name obj).mpr isOwned)
        ((ok.backed.live name' obj).mpr ⟨_, isOwner⟩)
      exact mine (sameName ▸ isOwner)
  have backedAfter := (backed.freedAll objsLive done disowned).forget t
  refine ⟨{ state with
      mem := after
      mm := update state.mm t none
      vmas := update state.vmas t []
      pagesOf := update state.pagesOf t []
      owner := state.disown t }, given, ?_, ⟨?_, ok.accounts.takeAll⟩, done.nodup, ?_⟩
  · rw [objsOf, foldlM_append] at ran
    rw [MemState.cleanMmSource, isMm]
    simp only [follow, bind, Except.bind, cleaned, MemState.freeVmas] at ran ⊢
    split at ran
    · cases ran
    · rename_i mid freedVmas
      have last : mid.freeSlot mm = .ok after := by
        rw [← ran]
        exact (bind_pure (mid.freeSlot mm)).symm
      simp only [last]
  · have sameLists : MemState.listsOf { state with
        mem := after
        mm := update state.mm t none
        vmas := update state.vmas t []
        pagesOf := update state.pagesOf t []
        owner := state.disown t } (free ++ state.pagesOf t ++ given) =
        update (update (update (update (state.listsOf free)
          (some t) (some [])) none (some (free ++ state.pagesOf t))) none
          (some (free ++ state.pagesOf t ++ given))) (some t) none := by
      rw [update_idem, update_comm (by rintro ⟨⟩), update_idem]
      funext h
      cases h with
      | none => rw [update_self]; rfl
      | some other =>
        rw [update_of_ne (by rintro ⟨⟩)]
        by_cases isT : other = t
        · rw [isT, update_self, MemState.listsOf]
          simp
        · have notT : some other ≠ some t := fun same => isT (Option.some.inj same)
          rw [update_of_ne notT, MemState.listsOf]
          simp only [update_of_ne isT]
          rfl
    rw [sameLists]
    exact backedAfter
  · intro p
    rw [done.given_iff]
    simp only [liveSame]

omit [DecidableEq Task] in
theorem owner_of_fresh (fresh : ¬ state.mem.Live defs name obj) : state.owner name obj = none := by
  cases isOwner : state.owner name obj with
  | none => rfl
  | some holder => exact absurd ((ok.backed.live name obj).mpr ⟨holder, isOwner⟩) fresh

theorem allocSlot (isOk : state.mem.allocSlot defs name = .ok (obj, after)) :
    ∃ lists' free', Allocated defs stop state.mem (state.listsOf free) free name obj after lists'
      free' := by
  have ends := ok.backed.slotted.allocSlot ok.backed.holds name
  rw [isOk] at ends
  cases ends with
  | found done => exact ⟨_, _, done⟩

theorem mmInit (noMm : state.mm t = none) (isOk : state.mmInit defs t = .ok next) :
    ∃ free', MemOk defs stop next free' := by
  rw [MemState.mmInit] at isOk
  cases isAlloc : state.mem.allocSlot defs .mmStructSlot with
  | error fault =>
    rw [isAlloc] at isOk
    cases isOk
  | ok found =>
    rcases found with ⟨obj, after⟩
    rw [isAlloc] at isOk
    cases isOk
    rcases ok.allocSlot isAlloc with ⟨lists', free', done⟩
    rcases ok.backed.allocated done (some t) with ⟨isLists, backed⟩
    refine ⟨free', ?_, ok.accounts.giveMm (ok.owner_of_fresh (done.fresh _)) noMm⟩
    have sameLists : ∀ next : MemState Task,
        next.mm = update state.mm t (some obj) →
        next.pagesOf = update state.pagesOf t [] →
        next.listsOf free' = update lists' (some t) (some []) := by
      intro next isMm isPages
      rw [isLists, ← state.listsOf_free]
      exact MemState.listsOf_update _ [] free' (by rw [update_self]; rintro ⟨⟩)
        (fun other different => update_of_ne different _ _) isMm isPages
    rw [sameLists _ rfl rfl]
    exact backed.relist (backed.holds.listInit t) fun q loose =>
      ⟨loose.update not_mem_nil, rfl⟩

theorem act {label : MemLabel Task} (stepped : state.act defs label = some (.ok next)) :
    ∃ free', MemOk defs stop next free' := by
  cases label with
  | allocPage =>
    cases free with
    | nil =>
      rw [MemState.act, ok.backed.holds.allocPage_nil] at stepped
      cases stepped
    | cons p free =>
      rcases ok.backed.allocPage with ⟨pages, allocated, backed⟩
      rw [MemState.act, allocated] at stepped
      cases stepped
      rw [← state.listsOf_free] at backed
      exact ⟨free, backed, ok.accounts⟩
  | freePage p =>
    rw [MemState.act] at stepped
    split at stepped
    case isFalse => cases stepped
    case isTrue isRaw =>
      rcases ok.backed.freePage isRaw with ⟨pages, freed, backed⟩
      rw [freed] at stepped
      cases stepped
      rw [← state.listsOf_free] at backed
      exact ⟨_, backed, ok.accounts⟩
  | store holder p content =>
    rw [MemState.act] at stepped
    split at stepped
    case isFalse => cases stepped
    case isTrue isHeld =>
      cases stepped
      exact ⟨free, ok.backed.store (ok.held_ne_slot isHeld) content, ok.accounts⟩
  | alloc name =>
    rw [MemState.act] at stepped
    cases isAlloc : state.mem.allocSlot defs name with
    | error fault =>
      rw [isAlloc] at stepped
      cases stepped
    | ok found =>
      rcases found with ⟨obj, after⟩
      rw [isAlloc] at stepped
      cases stepped
      rcases ok.allocSlot isAlloc with ⟨lists', free', done⟩
      rcases ok.backed.allocated done none with ⟨isLists, backed⟩
      rw [isLists, ← state.listsOf_free] at backed
      have fresh := ok.owner_of_fresh (done.fresh name)
      exact ⟨free', backed, ok.accounts.other (by rw [fresh]; rintro t ⟨⟩) (by rintro t ⟨⟩)⟩
  | free name obj =>
    rw [MemState.act] at stepped
    split at stepped
    case isFalse => cases stepped
    case isTrue isOther =>
      have isLive := (ok.backed.live name obj).mpr ⟨none, isOther⟩
      rcases ok.backed.slotted.freeSlot ok.backed.holds isLive with
        ⟨after, lists', free', isFreed, done⟩
      rcases ok.backed.freed isLive done with ⟨isLists, backed⟩
      rw [isFreed] at stepped
      cases stepped
      rw [isLists, ← state.listsOf_free] at backed
      exact ⟨free', backed, ok.accounts.other (by rw [isOther]; rintro t ⟨⟩) (by rintro t ⟨⟩)⟩
  | mmInit t =>
    rw [MemState.act] at stepped
    split at stepped
    case isFalse => cases stepped
    case isTrue noMm => exact ok.mmInit noMm (Option.some.inj stepped)
  | allocPageForTask t =>
    rw [MemState.act] at stepped
    split at stepped
    case isTrue => cases stepped
    case isFalse hasMm =>
      cases free with
      | nil =>
        rw [Pages.allocPageForTask, ok.backed.holds.allocPage_nil] at stepped
        cases stepped
      | cons p free =>
        rcases ok.allocPageForTask hasMm with ⟨pages, allocated, after⟩
        rw [allocated] at stepped
        cases stepped
        exact ⟨free, after⟩
  | freePageForTask t p =>
    rw [MemState.act] at stepped
    split at stepped
    case isFalse => cases stepped
    case isTrue isPage =>
      rcases ok.freePageForTask isPage with ⟨pages, freed, after⟩
      rw [freed] at stepped
      cases stepped
      exact ⟨_, after⟩
  | allocVma t =>
    rw [MemState.act] at stepped
    split at stepped
    case isTrue => cases stepped
    case isFalse hasMm =>
      cases isAlloc : state.mem.allocSlot defs .vmaSlot with
      | error fault =>
        rw [isAlloc] at stepped
        cases stepped
      | ok found =>
        rcases found with ⟨obj, after⟩
        rw [isAlloc] at stepped
        cases stepped
        rcases ok.allocSlot isAlloc with ⟨lists', free', done⟩
        rcases ok.backed.allocated done (some t) with ⟨isLists, backed⟩
        rw [isLists, ← state.listsOf_free] at backed
        exact ⟨free', backed, ok.accounts.giveVma (ok.owner_of_fresh (done.fresh _)) hasMm⟩
  | freeVma t vma =>
    rw [MemState.act] at stepped
    split at stepped
    case isFalse => cases stepped
    case isTrue isVma =>
      have isOwner := (ok.accounts.vmas_iff t vma).mp isVma
      have isLive := (ok.backed.live .vmaSlot vma).mpr ⟨some t, isOwner⟩
      rcases ok.backed.slotted.freeSlot ok.backed.holds isLive with
        ⟨after, lists', free', isFreed, done⟩
      rcases ok.backed.freed isLive done with ⟨isLists, backed⟩
      rw [isFreed] at stepped
      cases stepped
      rw [isLists, ← state.listsOf_free] at backed
      exact ⟨free', backed, ok.accounts.takeVma isVma⟩
  | cleanMmSource t =>
    rw [MemState.act] at stepped
    split at stepped
    case isTrue => cases stepped
    case isFalse hasMm =>
      rcases Option.ne_none_iff_exists'.mp hasMm with ⟨mm, isMm⟩
      rcases ok.cleanMmSource isMm with ⟨after, given, cleaned, okAfter, _⟩
      rw [cleaned] at stepped
      cases stepped
      exact ⟨_, okAfter⟩

end
end MemOk
end
end Tnix.Mem
