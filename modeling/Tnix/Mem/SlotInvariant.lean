import Tnix.Mem.Slot

/-! # The slots and their pages

A slot counts its chunks in use, it has a page exactly while there are some, and the pages of
different slots are different pages in use. -/

namespace Tnix.Mem

open List Memory
variable {Task Name : Type} {defs : SlotDefs Name}
  {stop : Nat} {mem after : Memory Task Name} {lists : Lists Task} {free : List Nat}
  {name : Name} {cur p i : Nat}

namespace Memory

def inuseChunks (defs : SlotDefs Name) (mem : Memory Task Name) (name : Name) (p : Nat) :
    Finset Nat :=
  (Finset.range (defs.chunks name)).filter fun i => (mem.pages.content p i).inuse = true

def used (defs : SlotDefs Name) (mem : Memory Task Name) (name : Name) (cur : Nat) : Nat :=
  match (mem.slots name cur).slot with
  | none => 0
  | some p => (mem.inuseChunks defs name p).card

/-- The object is one that an allocator has handed out. -/
def Live (defs : SlotDefs Name) (mem : Memory Task Name) (name : Name) (obj : Obj) : Prop :=
  ∃ cur < defs.num name, (mem.slots name cur).slot = some obj.1 ∧ obj.2 < defs.chunks name ∧
    (mem.pages.content obj.1 obj.2).inuse = true

end Memory

/-- The counts, the owners of the chunks and the pages of the slots. -/
structure Filled (defs : SlotDefs Name) (stop : Nat) (mem : Memory Task Name)
    (lists : Lists Task) : Prop where
  refc : ∀ {name cur}, cur < defs.num name →
    (mem.slots name cur).refc.toNat = mem.used defs name cur
  belong : ∀ {name cur p i}, cur < defs.num name → (mem.slots name cur).slot = some p →
    i < defs.chunks name → (mem.pages.content p i).inuse = true →
    (mem.pages.content p i).belong = some (name, cur)
  loose : ∀ {name cur p}, cur < defs.num name → (mem.slots name cur).slot = some p →
    Loose stop lists p
  once : ∀ {name name' cur cur' p}, cur < defs.num name → cur' < defs.num name' →
    (mem.slots name cur).slot = some p → (mem.slots name' cur').slot = some p →
    name = name' ∧ cur = cur'

/-- The slots between calls. -/
structure Slotted (defs : SlotDefs Name) (stop : Nat) (mem : Memory Task Name)
    (lists : Lists Task) : Prop extends Filled defs stop mem lists where
  null : ∀ {name cur}, cur < defs.num name →
    ((mem.slots name cur).slot = none ↔ (mem.slots name cur).refc = 0)

namespace Memory

section
variable [DecidableEq Name]

variable (mem : Memory Task Name)

theorem setSlot_self (slot : Slot) : (mem.setSlot name cur slot).slots name cur = slot := by
  rw [setSlot]
  simp only [Function.update_self]

theorem setSlot_other (slot : Slot) {name' : Name} {cur' : Nat}
    (different : ¬ (name' = name ∧ cur' = cur)) :
    (mem.setSlot name cur slot).slots name' cur' = mem.slots name' cur' := by
  rw [setSlot]
  by_cases sameName : name' = name
  · subst sameName
    have otherCur : cur' ≠ cur := fun same => different ⟨rfl, same⟩
    simp only [Function.update_self]
    exact Function.update_of_ne otherCur _ _
  · simp only [Function.update_of_ne sameName]

theorem takeChunk_slot (name : Name) (cur : Nat) (obj : Obj) (name' : Name) (cur' : Nat) :
    ((mem.takeChunk name cur obj).slots name' cur').slot = (mem.slots name' cur').slot := by
  by_cases here : name' = name ∧ cur' = cur
  · rcases here with ⟨rfl, rfl⟩
    have slotSelf : (mem.takeChunk name' cur' obj).slots name' cur' =
        { mem.slots name' cur' with refc := (mem.slots name' cur').refc + 1 } :=
      mem.setSlot_self _
    rw [slotSelf]
  · exact congrArg Slot.slot (mem.setSlot_other _ here)

end

theorem setChunk_self (mem : Memory Task Name) (chunk : Chunk Name) :
    (mem.setChunk (p, i) chunk).pages.content p i = chunk := by
  simp [setChunk]

theorem setChunk_other (mem : Memory Task Name) (chunk : Chunk Name) {q j : Nat}
    (different : ¬ (q = p ∧ j = i)) :
    (mem.setChunk (p, i) chunk).pages.content q j = mem.pages.content q j := by
  by_cases samePage : q = p
  · subst samePage
    have otherIndex : j ≠ i := fun same => different ⟨rfl, same⟩
    simp [setChunk, Function.update_of_ne otherIndex]
  · simp [setChunk, Function.update_of_ne samePage]

theorem inuseChunks_congr {q : Nat} {mem' : Memory Task Name}
    (same : ∀ j, mem'.pages.content q j = mem.pages.content q j) :
    mem'.inuseChunks defs name q = mem.inuseChunks defs name q := by
  simp only [inuseChunks, same]

section
variable (mem : Memory Task Name)

theorem inuseChunks_set (chunk : Chunk Name) (inPage : i < defs.chunks name)
    (nowInuse : chunk.inuse = true) : (mem.setChunk (p, i) chunk).inuseChunks defs name p =
      insert i (mem.inuseChunks defs name p) := by
  ext j
  simp only [inuseChunks, Finset.mem_filter, Finset.mem_range, Finset.mem_insert]
  by_cases same : j = i
  · subst same
    rw [setChunk_self]
    simp [inPage, nowInuse]
  · rw [setChunk_other _ _ fun both => same both.2]
    simp [same]

theorem inuseChunks_clear (chunk : Chunk Name) (notInuse : chunk.inuse = false) :
    (mem.setChunk (p, i) chunk).inuseChunks defs name p =
      (mem.inuseChunks defs name p).erase i := by
  ext j
  simp only [inuseChunks, Finset.mem_filter, Finset.mem_range, Finset.mem_erase]
  by_cases same : j = i
  · subst same
    rw [setChunk_self]
    simp [notInuse]
  · rw [setChunk_other _ _ fun both => same both.2]
    simp [same]

theorem card_inuseChunks_le : (mem.inuseChunks defs name p).card ≤ defs.chunks name := by
  have bound := Finset.card_filter_le (Finset.range (defs.chunks name))
    fun i => (mem.pages.content p i).inuse = true
  rwa [Finset.card_range] at bound

end

theorem used_of_some (isPage : (mem.slots name cur).slot = some p) :
    mem.used defs name cur = (mem.inuseChunks defs name p).card := by
  rw [used, isPage]

end Memory

theorem SlotDefs.chunks_le (defs : SlotDefs Name) (name : Name) : defs.chunks name ≤ 4096 :=
  Nat.div_le_self _ _

theorem Filled.refc_le (filled : Filled defs stop mem lists) (inArray : cur < defs.num name) :
    (mem.slots name cur).refc.toNat ≤ defs.chunks name := by
  rw [filled.refc inArray, Memory.used]
  split
  · exact Nat.zero_le _
  · exact mem.card_inuseChunks_le

theorem Filled.find_free (filled : Filled defs stop mem lists) (inArray : cur < defs.num name)
    (isPage : (mem.slots name cur).slot = some p)
    (notFull : (mem.slots name cur).refc.toNat ≠ defs.chunks name) :
    ∃ i, (List.range (defs.chunks name)).find? (fun i => !(mem.pages.content p i).inuse) = some i ∧
      i < defs.chunks name ∧ (mem.pages.content p i).inuse = false := by
  cases found : (List.range (defs.chunks name)).find?
      (fun i => !(mem.pages.content p i).inuse) with
  | some i =>
    refine ⟨i, rfl, mem_range.mp (mem_of_find?_eq_some found), ?_⟩
    have isFree := find?_some found
    rwa [Bool.not_eq_true'] at isFree
  | none =>
    -- Then all chunks are in use, and the count says that the slot is full.
    rw [find?_eq_none] at found
    have all : mem.inuseChunks defs name p = Finset.range (defs.chunks name) := by
      apply Finset.filter_true_of_mem
      intro i member
      have := found i (mem_range.mpr (Finset.mem_range.mp member))
      simpa using this
    rw [filled.refc inArray, used_of_some isPage, all, Finset.card_range] at notFull
    exact absurd rfl notFull

theorem Slotted.frame (slotted : Slotted defs stop mem lists)
    {pages : Pages Task (Nat → Chunk Name)} {lists' : Lists Task}
    (same : ∀ {name cur q}, cur < defs.num name → (mem.slots name cur).slot = some q →
      pages.content q = mem.pages.content q)
    (loose : ∀ {name cur q}, cur < defs.num name → (mem.slots name cur).slot = some q →
      Loose stop lists' q) :
    Slotted defs stop { mem with pages := pages } lists' ∧
      ∀ name obj, Memory.Live defs { mem with pages := pages } name obj ↔
        mem.Live defs name obj := by
  refine ⟨⟨⟨?_, ?_, loose, slotted.once⟩, slotted.null⟩, ?_⟩
  · intro name cur inArray
    refine (slotted.refc inArray).trans ?_
    cases isQ : (mem.slots name cur).slot with
    | none => simp only [Memory.used, isQ]
    | some q => simp only [Memory.used, isQ, Memory.inuseChunks, same inArray isQ]
  · intro name cur q j inArray isQ inPage isInuse
    rw [same inArray isQ] at isInuse ⊢
    exact slotted.belong inArray isQ inPage isInuse
  · intro name obj
    constructor
    · rintro ⟨cur, inArray, isQ, inPage, isInuse⟩
      rw [same inArray isQ] at isInuse
      exact ⟨cur, inArray, isQ, inPage, isInuse⟩
    · rintro ⟨cur, inArray, isQ, inPage, isInuse⟩
      refine ⟨cur, inArray, isQ, inPage, ?_⟩
      rw [same inArray isQ]
      exact isInuse

theorem Slotted.live_inj (slotted : Slotted defs stop mem lists) {name' : Name} {obj : Obj}
    (isLive : mem.Live defs name obj) (isLive' : mem.Live defs name' obj) : name = name' := by
  rcases isLive with ⟨cur, inArray, isPage, _⟩
  rcases isLive' with ⟨cur', inArray', isPage', _⟩
  exact (slotted.once inArray inArray' isPage isPage').1

variable [DecidableEq Name]

namespace Filled

variable (filled : Filled defs stop mem lists)
include filled

theorem store (inArray : cur < defs.num name)
    (isPage : (mem.slots name cur).slot = some p) {slot : Slot} {chunk : Chunk Name}
    (samePage : slot.slot = some p)
    (counted : slot.refc.toNat = ((mem.setChunk (p, i) chunk).inuseChunks defs name p).card)
    (owned : chunk.inuse = true → chunk.belong = some (name, cur)) :
    Filled defs stop ((mem.setSlot name cur slot).setChunk (p, i) chunk) lists := by
  generalize isAfter : (mem.setSlot name cur slot).setChunk (p, i) chunk = after
  have slotSelf : after.slots name cur = slot := by
    rw [← isAfter]
    exact mem.setSlot_self slot
  have slotOther : ∀ {name' cur'}, ¬ (name' = name ∧ cur' = cur) →
      after.slots name' cur' = mem.slots name' cur' := by
    intro name' cur' different
    rw [← isAfter]
    exact mem.setSlot_other slot different
  have samePages : ∀ name' cur', (after.slots name' cur').slot = (mem.slots name' cur').slot := by
    intro name' cur'
    by_cases here : name' = name ∧ cur' = cur
    · rcases here with ⟨rfl, rfl⟩
      rw [slotSelf, samePage, isPage]
    · rw [slotOther here]
  have contentOther : ∀ {q}, q ≠ p → ∀ j, after.pages.content q j = mem.pages.content q j := by
    intro q different j
    rw [← isAfter]
    exact (mem.setSlot name cur slot).setChunk_other chunk fun both => different both.1
  have otherPage : ∀ {name' cur' q}, cur' < defs.num name' → ¬ (name' = name ∧ cur' = cur) →
      (mem.slots name' cur').slot = some q → q ≠ p := by
    rintro name' cur' q inArray' different isQ rfl
    rcases filled.once inArray' inArray isQ isPage with ⟨rfl, rfl⟩
    exact different ⟨rfl, rfl⟩
  refine ⟨?_, ?_, ?_, ?_⟩
  · intro name' cur' inArray'
    by_cases here : name' = name ∧ cur' = cur
    · rcases here with ⟨rfl, rfl⟩
      rw [slotSelf, counted, used_of_some (by rw [slotSelf]; exact samePage), ← isAfter]
      rfl
    · rw [slotOther here, filled.refc inArray', Memory.used, Memory.used, slotOther here]
      split
      · rfl
      · rename_i q isQ
        rw [inuseChunks_congr (contentOther (otherPage inArray' here isQ))]
  · intro name' cur' q j inArray' isQ inPage isInuse
    rw [samePages] at isQ
    by_cases here : q = p ∧ j = i
    · rcases here with ⟨rfl, rfl⟩
      rcases filled.once inArray' inArray isQ isPage with ⟨rfl, rfl⟩
      rw [← isAfter, setChunk_self] at isInuse ⊢
      exact owned isInuse
    · rw [← isAfter, setChunk_other _ _ here] at isInuse ⊢
      exact filled.belong inArray' isQ inPage isInuse
  · intro name' cur' q inArray' isQ
    rw [samePages] at isQ
    exact filled.loose inArray' isQ
  · intro name' name'' cur' cur'' q inArray' inArray'' isQ isQ'
    rw [samePages] at isQ isQ'
    exact filled.once inArray' inArray'' isQ isQ'

omit [DecidableEq Name] in
theorem refc_succ (inArray : cur < defs.num name) :
    ((mem.slots name cur).refc + 1).toNat = (mem.slots name cur).refc.toNat + 1 := by
  have small := filled.refc_le inArray
  have bound := defs.chunks_le name
  rw [UInt32.toNat_add]
  have one : (1 : UInt32).toNat = 1 := rfl
  omega

theorem refc_takeChunk (inArray : cur < defs.num name) (obj : Obj) (cur' : Nat) :
    ((mem.takeChunk name cur obj).slots name cur').refc.toNat =
      (mem.slots name cur').refc.toNat + if cur' = cur then 1 else 0 := by
  by_cases same : cur' = cur
  · subst same
    rw [if_pos rfl, ← filled.refc_succ inArray]
    exact congrArg (UInt32.toNat ∘ Slot.refc) (mem.setSlot_self _)
  · rw [if_neg same]
    exact congrArg (UInt32.toNat ∘ Slot.refc) (mem.setSlot_other _ fun equal => same equal.2)

theorem take (null : ∀ {name' cur'}, cur' < defs.num name' → ¬ (name' = name ∧ cur' = cur) →
      ((mem.slots name' cur').slot = none ↔ (mem.slots name' cur').refc = 0))
    (inArray : cur < defs.num name) (isPage : (mem.slots name cur).slot = some p)
    (inPage : i < defs.chunks name) (notInuse : (mem.pages.content p i).inuse = false) :
    Slotted defs stop (mem.takeChunk name cur (p, i)) lists := by
  have counted := filled.refc_succ inArray
  have newCount : ((mem.setChunk (p, i) ⟨some (name, cur), true⟩).inuseChunks defs name p).card =
      (mem.slots name cur).refc.toNat + 1 := by
    rw [mem.inuseChunks_set _ inPage rfl, Finset.card_insert_of_notMem, filled.refc inArray,
      used_of_some isPage]
    simp [Memory.inuseChunks, notInuse]
  refine ⟨filled.store inArray isPage isPage (counted.trans newCount.symm) fun _ => rfl, ?_⟩
  intro name' cur' inArray'
  by_cases here : name' = name ∧ cur' = cur
  · rcases here with ⟨rfl, rfl⟩
    have slotSelf : (mem.takeChunk name' cur' (p, i)).slots name' cur' =
        { mem.slots name' cur' with refc := (mem.slots name' cur').refc + 1 } :=
      mem.setSlot_self _
    rw [slotSelf]
    refine iff_of_false ?_ ?_
    · simp [isPage]
    · intro isZero
      have zero := congrArg UInt32.toNat isZero
      rw [counted] at zero
      cases zero
  · have slotOther : (mem.takeChunk name cur (p, i)).slots name' cur' = mem.slots name' cur' :=
      mem.setSlot_other _ here
    rw [slotOther]
    exact null inArray' here

theorem live_take (inArray : cur < defs.num name)
    (isPage : (mem.slots name cur).slot = some p) (inPage : i < defs.chunks name)
    (notInuse : (mem.pages.content p i).inuse = false) (name' : Name) (obj : Obj) :
    (mem.takeChunk name cur (p, i)).Live defs name' obj ↔
      (name' = name ∧ obj = (p, i)) ∨ mem.Live defs name' obj := by
  have samePages := mem.takeChunk_slot name cur (p, i)
  have sameChunk : obj ≠ (p, i) → (mem.takeChunk name cur (p, i)).pages.content obj.1 obj.2 =
      mem.pages.content obj.1 obj.2 := by
    intro different
    exact (mem.setSlot name cur _).setChunk_other _ fun both =>
      different (Prod.ext both.1 both.2)
  constructor
  · rintro ⟨cur', inArray', isQ, inPage', isInuse⟩
    rw [samePages] at isQ
    by_cases here : obj = (p, i)
    · subst here
      exact .inl ⟨(filled.once inArray' inArray isQ isPage).1, rfl⟩
    · rw [sameChunk here] at isInuse
      exact .inr ⟨cur', inArray', isQ, inPage', isInuse⟩
  · rintro (⟨rfl, rfl⟩ | ⟨cur', inArray', isQ, inPage', isInuse⟩)
    · refine ⟨cur, inArray, (samePages _ _).trans isPage, inPage, ?_⟩
      exact congrArg Chunk.inuse ((mem.setSlot name' cur _).setChunk_self _)
    · have different : obj ≠ (p, i) := by
        rintro rfl
        rw [notInuse] at isInuse
        cases isInuse
      exact ⟨cur', inArray', (samePages _ _).trans isQ, inPage', (sameChunk different) ▸ isInuse⟩

end Filled

section
variable [DecidableEq Task]

theorem Loose.update {h : Option Task} {list : List Nat} {q : Nat} (loose : Loose stop lists q)
    (notIn : q ∉ list) : Loose stop (Function.update lists h (some list)) q :=
  ⟨loose.inMemory, loose.notReserved, loose.off.update h notIn⟩

theorem Loose.shrink {q : Nat} (loose : Loose stop lists q) (isFree : lists none = some (p :: free)) :
    Loose stop (Function.update lists none (some free)) q :=
  loose.update fun member => loose.off _ _ isFree (mem_cons_of_mem _ member)

theorem Loose.grow {q : Nat} (loose : Loose stop lists q) (isFree : lists none = some free)
    (different : q ≠ p) : Loose stop (Function.update lists none (some (free ++ [p]))) q := by
  apply loose.update
  rw [mem_append, mem_singleton]
  rintro (member | same)
  · exact loose.off _ _ isFree member
  · exact different same

structure Allocated (defs : SlotDefs Name) (stop : Nat) (mem : Memory Task Name)
    (lists : Lists Task) (free : List Nat) (name : Name) (obj : Obj) (after : Memory Task Name)
    (lists' : Lists Task) (free' : List Nat) : Prop where
  holds : Holds stop after.pages lists' free'
  slotted : Slotted defs stop after lists'
  fresh : ∀ name', ¬ mem.Live defs name' obj
  live : ∀ name' obj', after.Live defs name' obj' ↔
    (name' = name ∧ obj' = obj) ∨ mem.Live defs name' obj'
  lists : (free' = free ∧ lists' = lists) ∨
    (free = obj.1 :: free' ∧ lists' = Function.update lists none (some free'))
  slots : ∀ {name' cur' q}, (after.slots name' cur').slot = some q →
    (mem.slots name' cur').slot = some q ∨ (q = obj.1 ∧ obj.1 ∈ free)
  refc : ∃ cur < defs.num name, ∀ cur', (after.slots name cur').refc.toNat =
    (mem.slots name cur').refc.toNat + if cur' = cur then 1 else 0

namespace Slotted

section
variable (slotted : Slotted defs stop mem lists)
include slotted

omit [DecidableEq Name] [DecidableEq Task] in
theorem refc_pos (inArray : cur < defs.num name) (isPage : (mem.slots name cur).slot = some p) :
    (mem.slots name cur).refc ≠ 0 := by
  intro isZero
  rw [(slotted.null inArray).mpr isZero] at isPage
  cases isPage

omit [DecidableEq Name] [DecidableEq Task] in
theorem exists_live (inArray : cur < defs.num name) (notZero : (mem.slots name cur).refc ≠ 0) :
    ∃ obj, (mem.slots name cur).slot = some obj.1 ∧ mem.Live defs name obj := by
  have hasPage : (mem.slots name cur).slot ≠ none := mt (slotted.null inArray).mp notZero
  rcases Option.ne_none_iff_exists'.mp hasPage with ⟨p, isPage⟩
  have counted := slotted.refc inArray
  rw [used_of_some isPage] at counted
  have positive : 0 < (mem.inuseChunks defs name p).card := by
    rw [← counted]
    exact Nat.pos_of_ne_zero fun isZero => notZero (UInt32.toNat_inj.mp isZero)
  rcases Finset.card_pos.mp positive with ⟨i, member⟩
  simp only [Memory.inuseChunks, Finset.mem_filter, Finset.mem_range] at member
  exact ⟨(p, i), isPage, cur, inArray, isPage, member.1, member.2⟩

theorem allocate (holds : Holds stop mem.pages lists free) (inArray : cur < defs.num name)
    (isPage : (mem.slots name cur).slot = some p) (inPage : i < defs.chunks name)
    (notInuse : (mem.pages.content p i).inuse = false) :
    Allocated defs stop mem lists free name (p, i) (mem.takeChunk name cur (p, i)) lists free where
  holds := ⟨holds.threaded, holds.isFree, holds.inuse, holds.usable⟩
  slotted := slotted.take (fun inArray' _ => slotted.null inArray') inArray isPage inPage notInuse
  fresh := by
    rintro name' ⟨_, _, _, _, isInuse⟩
    rw [notInuse] at isInuse
    cases isInuse
  live := slotted.live_take inArray isPage inPage notInuse
  lists := .inl ⟨rfl, rfl⟩
  slots := by
    intro name' cur' q isQ
    rw [mem.takeChunk_slot] at isQ
    exact .inl isQ
  refc := ⟨cur, inArray, slotted.refc_takeChunk inArray _⟩

theorem pageFor (holds : Holds stop mem.pages lists (p :: free)) (inArray : cur < defs.num name)
    (empty : (mem.slots name cur).refc = 0) :
    ∃ after, mem.pageFor name cur = .ok after ∧
      Holds stop after.pages (Function.update lists none (some free)) free ∧
      Filled defs stop after (Function.update lists none (some free)) ∧
      after.slots name cur = ⟨0, some p⟩ ∧
      (∀ {name' cur'}, ¬ (name' = name ∧ cur' = cur) →
        after.slots name' cur' = mem.slots name' cur') ∧
      (∀ i, (after.pages.content p i).inuse = false) ∧
      ∀ name' obj, after.Live defs name' obj ↔ mem.Live defs name' obj := by
  rcases @Holds.allocPage_cons _ _ _ _ _ _ _ Memory.zeroPage _ holds with
    ⟨pages, allocated, holdsAfter, loose, _, content⟩
  have wasFree : ∀ {name' cur' q}, cur' < defs.num name' → (mem.slots name' cur').slot = some q →
      q ≠ p := by
    rintro name' cur' q inArray' isQ rfl
    exact (slotted.loose inArray' isQ).off _ _ holds.isFree mem_cons_self
  have noPage : (mem.slots name cur).slot = none := (slotted.null inArray).mpr empty
  generalize isAfter : ({ mem with pages := pages }.setSlot name cur
    { mem.slots name cur with slot := some p }) = after
  have slotSelf : after.slots name cur = ⟨0, some p⟩ := by
    rw [← isAfter, setSlot_self]
    exact congrArg (fun refc => (⟨refc, some p⟩ : Slot)) empty
  have slotOther : ∀ {name' cur'}, ¬ (name' = name ∧ cur' = cur) →
      after.slots name' cur' = mem.slots name' cur' := by
    intro name' cur' different
    rw [← isAfter]
    exact setSlot_other _ _ different
  have contentSelf : after.pages.content p = Memory.zeroPage := by
    rw [← isAfter]
    exact (congrFun content p).trans (Function.update_self _ _ _)
  have contentOther : ∀ {q}, q ≠ p → after.pages.content q = mem.pages.content q := by
    intro q different
    rw [← isAfter]
    exact (congrFun content q).trans (Function.update_of_ne different _ _)
  have notInuse : ∀ i, (after.pages.content p i).inuse = false := by
    intro i
    rw [contentSelf]
    rfl
  refine ⟨after, ?_, ?_, ⟨?_, ?_, ?_, ?_⟩, slotSelf, slotOther, notInuse, ?_⟩
  · rw [Memory.pageFor, if_pos empty, allocated, ← isAfter]
    rfl
  · rw [← isAfter]
    exact holdsAfter
  · intro name' cur' inArray'
    by_cases here : name' = name ∧ cur' = cur
    · rcases here with ⟨rfl, rfl⟩
      rw [used_of_some (by rw [slotSelf]), slotSelf]
      simp [Memory.inuseChunks, notInuse]
    · rw [slotOther here, slotted.refc inArray', Memory.used, Memory.used, slotOther here]
      split
      · rfl
      · rename_i q isQ
        rw [inuseChunks_congr fun j => congrFun (contentOther (wasFree inArray' isQ)) j]
  · intro name' cur' q i inArray' isQ inPage isInuse
    by_cases here : name' = name ∧ cur' = cur
    · rcases here with ⟨rfl, rfl⟩
      rw [slotSelf] at isQ
      cases isQ
      rw [notInuse] at isInuse
      cases isInuse
    · rw [slotOther here] at isQ
      rw [contentOther (wasFree inArray' isQ)] at isInuse ⊢
      exact slotted.belong inArray' isQ inPage isInuse
  · intro name' cur' q inArray' isQ
    by_cases here : name' = name ∧ cur' = cur
    · rcases here with ⟨rfl, rfl⟩
      rw [slotSelf] at isQ
      cases isQ
      exact loose
    · rw [slotOther here] at isQ
      exact (slotted.loose inArray' isQ).shrink holds.isFree
  · intro name' name'' cur' cur'' q inArray' inArray'' isQ isQ'
    by_cases here : name' = name ∧ cur' = cur <;> by_cases here' : name'' = name ∧ cur'' = cur
    · exact ⟨here.1.trans here'.1.symm, here.2.trans here'.2.symm⟩
    · rw [here.1, here.2, slotSelf] at isQ
      rw [slotOther here'] at isQ'
      cases isQ
      exact absurd rfl (wasFree inArray'' isQ')
    · rw [slotOther here] at isQ
      rw [here'.1, here'.2, slotSelf] at isQ'
      cases isQ'
      exact absurd rfl (wasFree inArray' isQ)
    · rw [slotOther here] at isQ
      rw [slotOther here'] at isQ'
      exact slotted.once inArray' inArray'' isQ isQ'
  · intro name' obj
    constructor
    · rintro ⟨cur', inArray', isQ, inPage, isInuse⟩
      by_cases here : name' = name ∧ cur' = cur
      · rcases here with ⟨rfl, rfl⟩
        rw [slotSelf] at isQ
        rw [← Option.some.inj isQ, notInuse] at isInuse
        cases isInuse
      · rw [slotOther here] at isQ
        rw [contentOther (wasFree inArray' isQ)] at isInuse
        exact ⟨cur', inArray', isQ, inPage, isInuse⟩
    · rintro ⟨cur', inArray', isQ, inPage, isInuse⟩
      have here : ¬ (name' = name ∧ cur' = cur) := by
        rintro ⟨rfl, rfl⟩
        rw [noPage] at isQ
        cases isQ
      exact ⟨cur', inArray', by rwa [slotOther here], inPage,
        by rwa [contentOther (wasFree inArray' isQ)]⟩

theorem allocTurn (holds : Holds stop mem.pages lists free) (inArray : cur < defs.num name) :
    ((mem.slots name cur).refc.toNat = defs.chunks name ∧
      mem.allocTurn defs name cur = .ok (.full, mem)) ∨
    ((mem.slots name cur).refc.toNat ≠ defs.chunks name ∧
      ((free = [] ∧ (mem.slots name cur).refc = 0 ∧ mem.allocTurn defs name cur =
          .error (.panic "alloc_page: memory exhausted")) ∨
        ∃ obj after lists' free', mem.allocTurn defs name cur = .ok (.found obj, after) ∧
          Allocated defs stop mem lists free name obj after lists' free')) := by
  have chunksPos := defs.chunks_pos name
  by_cases empty : (mem.slots name cur).refc = 0
  · have notFull : (mem.slots name cur).refc.toNat ≠ defs.chunks name := by
      rw [empty]
      exact Nat.ne_of_lt chunksPos
    refine .inr ⟨notFull, ?_⟩
    cases free with
    | nil =>
      refine .inl ⟨rfl, empty, ?_⟩
      rw [Memory.allocTurn, Memory.pageFor, if_pos empty, holds.allocPage_nil]
      rfl
    | cons p free =>
      rcases slotted.pageFor holds inArray empty with
        ⟨mid, paged, holdsMid, filled, slotSelf, slotOther, notInuse, liveMid⟩
      have isPage : (mid.slots name cur).slot = some p := by rw [slotSelf]
      have notFullMid : (mid.slots name cur).refc.toNat ≠ defs.chunks name := by
        rw [slotSelf]
        exact Nat.ne_of_lt chunksPos
      rcases filled.find_free inArray isPage notFullMid with ⟨i, found, inPage, isFree⟩
      refine .inr ⟨(p, i), mid.takeChunk name cur (p, i), _, free, ?_,
        ⟨holdsMid.threaded, holdsMid.isFree, holdsMid.inuse, holdsMid.usable⟩, ?_, ?_, ?_,
        .inr ⟨rfl, rfl⟩, ?_, cur, inArray, fun cur' => ?_⟩
      · rw [Memory.allocTurn, paged]
        simp only [bind, Except.bind, if_neg notFullMid, isPage, follow, found]
      · refine filled.take ?_ inArray isPage inPage isFree
        intro name' cur' inArray' different
        rw [slotOther different]
        exact slotted.null inArray'
      · intro name' wasLive
        rcases (liveMid name' (p, i)).mpr wasLive with ⟨_, _, _, _, isInuse⟩
        rw [notInuse] at isInuse
        cases isInuse
      · intro name' obj
        rw [filled.live_take inArray isPage inPage isFree, liveMid]
      · intro name' cur' q isQ
        rw [mid.takeChunk_slot] at isQ
        by_cases here : name' = name ∧ cur' = cur
        · rw [here.1, here.2, slotSelf] at isQ
          exact .inr ⟨(Option.some.inj isQ).symm, mem_cons_self⟩
        · rw [slotOther here] at isQ
          exact .inl isQ
      · rw [filled.refc_takeChunk inArray]
        by_cases here : cur' = cur
        · rw [here, slotSelf, empty]
        · rw [slotOther fun equal => here equal.2]
  · have paged : mem.pageFor name cur = .ok mem := by
      rw [Memory.pageFor, if_neg empty]
    by_cases isFull : (mem.slots name cur).refc.toNat = defs.chunks name
    · refine .inl ⟨isFull, ?_⟩
      rw [Memory.allocTurn, paged]
      simp only [bind, Except.bind, if_pos isFull]
    · have hasPage : (mem.slots name cur).slot ≠ none := mt (slotted.null inArray).mp empty
      rcases Option.ne_none_iff_exists'.mp hasPage with ⟨p, isPage⟩
      rcases slotted.find_free inArray isPage isFull with ⟨i, found, inPage, isFree⟩
      refine .inr ⟨isFull, .inr ⟨(p, i), _, lists, free, ?_,
        slotted.allocate holds inArray isPage inPage isFree⟩⟩
      rw [Memory.allocTurn, paged]
      simp only [bind, Except.bind, if_neg isFull, isPage, follow, found]

end

/-- What `alloc_name` ends with: an object, or a panic because all slots are full or because
there is no page for one that has none. -/
inductive AllocEnd (defs : SlotDefs Name) (stop : Nat) (mem : Memory Task Name)
    (lists : Lists Task) (free : List Nat) (name : Name) :
    Except MemFault (Obj × Memory Task Name) → Prop
  | found {obj : Obj} {after : Memory Task Name} {lists' : Lists Task} {free' : List Nat} :
      Allocated defs stop mem lists free name obj after lists' free' →
      AllocEnd defs stop mem lists free name (.ok (obj, after))
  | noMemory {cur : Nat} : free = [] → cur < defs.num name → (mem.slots name cur).refc = 0 →
      AllocEnd defs stop mem lists free name (.error (.panic "alloc_page: memory exhausted"))
  | exhausted : (∀ cur < defs.num name, (mem.slots name cur).refc.toNat = defs.chunks name) →
      AllocEnd defs stop mem lists free name
        (.error (.panic ("alloc_" ++ defs.label name ++ ": slot exhausted")))

variable (slotted : Slotted defs stop mem lists)
include slotted

variable (holds : Holds stop mem.pages lists free)
include holds

theorem allocSlotFrom
    (passed : ∀ earlier < cur, (mem.slots name earlier).refc.toNat = defs.chunks name)
    {fuel : Nat} (inArray : cur < defs.num name) (enough : defs.num name < cur + fuel) :
    AllocEnd defs stop mem lists free name
      (Memory.allocSlotFrom defs name fuel (some cur) mem) := by
  induction fuel generalizing cur with
  | zero => omega
  | succ fuel induction =>
    simp only [Memory.allocSlotFrom]
    rcases slotted.allocTurn holds inArray with
      ⟨isFull, turned⟩ | ⟨_, ⟨noPages, empty, failed⟩ | ⟨obj, after, lists', free', turned, done⟩⟩
    · have passedToo : ∀ earlier < cur + 1,
          (mem.slots name earlier).refc.toNat = defs.chunks name := by
        intro earlier less
        rcases Nat.lt_succ_iff_lt_or_eq.mp less with less | rfl
        · exact passed earlier less
        · exact isFull
      rw [turned]
      simp only [bind, Except.bind, SlotDefs.next]
      by_cases more : cur + 1 < defs.num name
      · rw [if_pos more]
        exact induction passedToo more (by omega)
      · rw [if_neg more]
        cases fuel with
        | zero => omega
        | succ fuel =>
          exact .exhausted fun earlier less => passedToo earlier (by omega)
    · rw [failed]
      exact .noMemory noPages inArray empty
    · rw [turned]
      exact .found done

theorem allocSlot (name : Name) :
    AllocEnd defs stop mem lists free name (mem.allocSlot defs name) :=
  slotted.allocSlotFrom holds (fun _ less => absurd less (Nat.not_lt_zero _))
    (defs.num_pos name) (Nat.lt_of_lt_of_eq (Nat.lt_succ_self _) (Nat.zero_add _).symm)

end Slotted

/-! ## Release -/

/-- What `free_name` has done. The page goes back exactly when no other object is in it. -/
structure Freed (defs : SlotDefs Name) (stop : Nat) (mem : Memory Task Name)
    (lists : Lists Task) (free : List Nat) (obj : Obj) (after : Memory Task Name)
    (lists' : Lists Task) (free' : List Nat) : Prop where
  holds : Holds stop after.pages lists' free'
  slotted : Slotted defs stop after lists'
  live : ∀ name' obj', after.Live defs name' obj' ↔ mem.Live defs name' obj' ∧ obj' ≠ obj
  lists : (free' = free ∧ lists' = lists ∧
      ∃ name' other, mem.Live defs name' other ∧ other.1 = obj.1 ∧ other ≠ obj) ∨
    (free' = free ++ [obj.1] ∧ lists' = Function.update lists none (some free') ∧
      ∀ name' other, mem.Live defs name' other → other.1 = obj.1 → other = obj)
  slots : ∀ {name' cur' q}, (after.slots name' cur').slot = some q →
    (mem.slots name' cur').slot = some q

def Memory.clearChunk (mem : Memory Task Name) (name : Name) (cur : Nat) (obj : Obj) :
    Memory Task Name :=
  (mem.setSlot name cur
    { mem.slots name cur with refc := (mem.slots name cur).refc - 1 }).setChunk obj
      { mem.pages.content obj.1 obj.2 with inuse := false }

theorem Memory.freeSlot_of_belong {obj : Obj}
    (belong : (mem.pages.content obj.1 obj.2).belong = some (name, cur)) :
    mem.freeSlot obj = if (mem.slots name cur).refc - 1 = 0 then do
        let p ← follow (mem.slots name cur).slot
        let pages ← (mem.clearChunk name cur obj).pages.freePage p
        .ok ({ mem.clearChunk name cur obj with pages := pages }.setSlot name cur
          ⟨(mem.slots name cur).refc - 1, none⟩)
      else .ok (mem.clearChunk name cur obj) := by
  simp only [Memory.freeSlot, Memory.clearChunk, belong]
  rfl

omit [DecidableEq Task] in
theorem Memory.clearChunk_slot (mem : Memory Task Name) (name : Name) (cur : Nat) (obj : Obj)
    (name' : Name) (cur' : Nat) :
    ((mem.clearChunk name cur obj).slots name' cur').slot = (mem.slots name' cur').slot := by
  by_cases here : name' = name ∧ cur' = cur
  · rcases here with ⟨rfl, rfl⟩
    have slotSelf : (mem.clearChunk name' cur' obj).slots name' cur' =
        { mem.slots name' cur' with refc := (mem.slots name' cur').refc - 1 } :=
      mem.setSlot_self _
    rw [slotSelf]
  · exact congrArg Slot.slot (mem.setSlot_other _ here)

omit [DecidableEq Task] in
theorem Memory.live_clearChunk (mem : Memory Task Name) (name : Name) (cur p i : Nat)
    (name' : Name) (obj : Obj) :
    (mem.clearChunk name cur (p, i)).Live defs name' obj ↔
      mem.Live defs name' obj ∧ obj ≠ (p, i) := by
  have sameChunk : obj ≠ (p, i) → (mem.clearChunk name cur (p, i)).pages.content obj.1 obj.2 =
      mem.pages.content obj.1 obj.2 := by
    intro different
    exact (mem.setSlot name cur _).setChunk_other _ fun both =>
      different (Prod.ext both.1 both.2)
  constructor
  · rintro ⟨cur', inArray', isQ, inPage', stillInuse⟩
    rw [mem.clearChunk_slot] at isQ
    have different : obj ≠ (p, i) := by
      rintro rfl
      have cleared : (mem.clearChunk name cur (p, i)).pages.content p i =
          { mem.pages.content p i with inuse := false } := setChunk_self _ _
      rw [cleared] at stillInuse
      cases stillInuse
    rw [sameChunk different] at stillInuse
    exact ⟨⟨cur', inArray', isQ, inPage', stillInuse⟩, different⟩
  · rintro ⟨⟨cur', inArray', isQ, inPage', wasInuse⟩, different⟩
    refine ⟨cur', inArray', ?_, inPage', ?_⟩
    · rw [mem.clearChunk_slot]
      exact isQ
    · rw [sameChunk different]
      exact wasInuse

namespace Slotted

section
variable (slotted : Slotted defs stop mem lists) (inArray : cur < defs.num name)
  (isPage : (mem.slots name cur).slot = some p) (inPage : i < defs.chunks name)
  (isInuse : (mem.pages.content p i).inuse = true)
include slotted inArray isPage inPage isInuse

omit [DecidableEq Name] [DecidableEq Task] in
theorem refc_pred :
    ((mem.slots name cur).refc - 1).toNat + 1 = (mem.inuseChunks defs name p).card ∧
      i ∈ mem.inuseChunks defs name p := by
  have member : i ∈ mem.inuseChunks defs name p := by
    simp [Memory.inuseChunks, inPage, isInuse]
  have counted := slotted.refc inArray
  rw [used_of_some isPage] at counted
  have positive := Finset.card_pos.mpr ⟨i, member⟩
  have bound := (mem.slots name cur).refc.toNat_lt
  refine ⟨?_, member⟩
  rw [UInt32.toNat_sub]
  have one : (1 : UInt32).toNat = 1 := rfl
  omega

omit [DecidableEq Task] in
theorem filled_clear : Filled defs stop (mem.clearChunk name cur (p, i)) lists := by
  rcases slotted.refc_pred inArray isPage inPage isInuse with ⟨counted, member⟩
  refine slotted.store inArray isPage isPage ?_ (by rintro ⟨⟩)
  rw [mem.inuseChunks_clear _ rfl, Finset.card_erase_of_mem member]
  exact Nat.eq_sub_of_add_eq counted

omit [DecidableEq Name] [DecidableEq Task] in
theorem last_iff : (mem.slots name cur).refc - 1 = 0 ↔
    ∀ name' other, mem.Live defs name' other → other.1 = p → other = (p, i) := by
  rcases slotted.refc_pred inArray isPage inPage isInuse with ⟨counted, member⟩
  constructor
  · rintro isZero name' ⟨q, j⟩ ⟨cur', inArray', isQ, inPage', otherInuse⟩ rfl
    rcases slotted.once inArray' inArray isQ isPage with ⟨rfl, rfl⟩
    rw [isZero] at counted
    have single := Finset.card_le_one.mp (Nat.le_of_eq counted.symm)
    have otherMember : j ∈ mem.inuseChunks defs name' q := by
      simp [Memory.inuseChunks, inPage', otherInuse]
    rw [single j otherMember i member]
  · intro alone
    have single : mem.inuseChunks defs name p = {i} := by
      apply Finset.eq_singleton_iff_unique_mem.mpr
      refine ⟨member, ?_⟩
      intro j otherMember
      simp only [Memory.inuseChunks, Finset.mem_filter, Finset.mem_range] at otherMember
      have same := alone name (p, j) ⟨cur, inArray, isPage, otherMember.1, otherMember.2⟩ rfl
      exact congrArg Prod.snd same
    rw [single, Finset.card_singleton] at counted
    exact UInt32.toNat_inj.mp (Nat.succ.inj counted)

end
end Slotted

theorem Filled.dropPage (filled : Filled defs stop mem lists) (inArray : cur < defs.num name)
    (isPage : (mem.slots name cur).slot = some p) (isFree : lists none = some free)
    (noLive : ∀ name' obj, mem.Live defs name' obj → obj.1 ≠ p)
    (slotSelf : after.slots name cur = ⟨0, none⟩)
    (slotOther : ∀ {name' cur'}, ¬ (name' = name ∧ cur' = cur) →
      after.slots name' cur' = mem.slots name' cur')
    (sameContent : after.pages.content = mem.pages.content) :
    Filled defs stop after (Function.update lists none (some (free ++ [p]))) ∧
      ∀ name' obj, after.Live defs name' obj ↔ mem.Live defs name' obj := by
  have kept : ∀ {name' cur' q}, (after.slots name' cur').slot = some q →
      ¬ (name' = name ∧ cur' = cur) ∧ (mem.slots name' cur').slot = some q := by
    intro name' cur' q isQ
    have here : ¬ (name' = name ∧ cur' = cur) := by
      rintro ⟨rfl, rfl⟩
      rw [slotSelf] at isQ
      cases isQ
    exact ⟨here, slotOther here ▸ isQ⟩
  refine ⟨⟨?_, ?_, ?_, ?_⟩, ?_⟩
  · intro name' cur' inArray'
    by_cases here : name' = name ∧ cur' = cur
    · rw [here.1, here.2, Memory.used, slotSelf]
      rfl
    · rw [slotOther here, filled.refc inArray', Memory.used, Memory.used, slotOther here]
      split
      · rfl
      · rw [inuseChunks_congr fun j => by rw [sameContent]]
  · intro name' cur' q j inArray' isQ inPage isInuse
    rw [sameContent] at isInuse ⊢
    exact filled.belong inArray' (kept isQ).2 inPage isInuse
  · intro name' cur' q inArray' isQ
    rcases kept isQ with ⟨here, wasQ⟩
    refine (filled.loose inArray' wasQ).grow isFree ?_
    rintro rfl
    exact here (filled.once inArray' inArray wasQ isPage)
  · intro name' name'' cur' cur'' q inArray' inArray'' isQ isQ'
    exact filled.once inArray' inArray'' (kept isQ).2 (kept isQ').2
  · intro name' obj
    constructor
    · rintro ⟨cur', inArray', isQ, inPage, isInuse⟩
      rw [sameContent] at isInuse
      exact ⟨cur', inArray', (kept isQ).2, inPage, isInuse⟩
    · intro wasLive
      have notP := noLive name' obj wasLive
      rcases wasLive with ⟨cur', inArray', isQ, inPage, isInuse⟩
      have here : ¬ (name' = name ∧ cur' = cur) := by
        rintro ⟨rfl, rfl⟩
        rw [isPage] at isQ
        exact notP (Option.some.inj isQ).symm
      refine ⟨cur', inArray', ?_, inPage, ?_⟩
      · rw [slotOther here]
        exact isQ
      · rw [sameContent]
        exact isInuse

theorem Slotted.freeSlot (slotted : Slotted defs stop mem lists)
    (holds : Holds stop mem.pages lists free) {obj : Obj} (isLive : mem.Live defs name obj) :
    ∃ after lists' free', mem.freeSlot obj = .ok after ∧
      Freed defs stop mem lists free obj after lists' free' := by
  rcases obj with ⟨p, i⟩
  rcases isLive with ⟨cur, inArray, isPage, inPage, isInuse⟩
  simp only at isPage inPage isInuse
  have belong := slotted.belong inArray isPage inPage isInuse
  have filled := slotted.filled_clear inArray isPage inPage isInuse
  have last := slotted.last_iff inArray isPage inPage isInuse
  have live := @Memory.live_clearChunk _ _ defs _ mem name cur p i
  have slotSelf : (mem.clearChunk name cur (p, i)).slots name cur =
      { mem.slots name cur with refc := (mem.slots name cur).refc - 1 } := mem.setSlot_self _
  have slotOther : ∀ {name' cur'}, ¬ (name' = name ∧ cur' = cur) →
      (mem.clearChunk name cur (p, i)).slots name' cur' = mem.slots name' cur' :=
    fun different => mem.setSlot_other _ different
  have holdsClear : Holds stop (mem.clearChunk name cur (p, i)).pages lists free :=
    ⟨holds.threaded, holds.isFree, holds.inuse, holds.usable⟩
  by_cases isZero : (mem.slots name cur).refc - 1 = 0
  · rcases holdsClear.freePage (slotted.loose inArray isPage) with
      ⟨pages, freed, holdsAfter, _, content⟩
    generalize isAfter : ({ mem.clearChunk name cur (p, i) with pages := pages }.setSlot name cur
      ⟨(mem.slots name cur).refc - 1, none⟩) = after
    have noLive : ∀ name' obj, (mem.clearChunk name cur (p, i)).Live defs name' obj →
        obj.1 ≠ p := by
      intro name' obj stillLive inP
      rcases (live name' obj).mp stillLive with ⟨wasLive, different⟩
      exact different (last.mp isZero name' obj wasLive inP)
    have afterSelf : after.slots name cur = ⟨0, none⟩ := by
      rw [← isAfter, setSlot_self, isZero]
    have afterOther : ∀ {name' cur'}, ¬ (name' = name ∧ cur' = cur) →
        after.slots name' cur' = (mem.clearChunk name cur (p, i)).slots name' cur' := by
      intro name' cur' different
      rw [← isAfter]
      exact setSlot_other _ _ different
    rcases filled.dropPage inArray ((mem.clearChunk_slot _ _ _ _ _).trans isPage) holds.isFree
      noLive afterSelf afterOther (by rw [← isAfter]; exact content) with ⟨filledAfter, liveAfter⟩
    refine ⟨after, _, _, ?_, by rw [← isAfter]; exact holdsAfter, ⟨filledAfter, ?_⟩, ?_,
      .inr ⟨rfl, rfl, last.mp isZero⟩, ?_⟩
    · rw [freeSlot_of_belong belong, if_pos isZero, isPage]
      simp only [follow, bind, Except.bind, freed, isAfter]
    · intro name' cur' inArray'
      by_cases here : name' = name ∧ cur' = cur
      · rw [here.1, here.2, afterSelf]
        exact iff_of_true rfl rfl
      · rw [afterOther here, slotOther here]
        exact slotted.null inArray'
    · intro name' obj
      rw [liveAfter, live]
    · intro name' cur' q isQ
      by_cases here : name' = name ∧ cur' = cur
      · rw [here.1, here.2, afterSelf] at isQ
        cases isQ
      · rw [afterOther here, slotOther here] at isQ
        exact isQ
  · refine ⟨mem.clearChunk name cur (p, i), lists, free, ?_, holdsClear, ⟨filled, ?_⟩, live, ?_, ?_⟩
    · rw [freeSlot_of_belong belong, if_neg isZero]
    · intro name' cur' inArray'
      by_cases here : name' = name ∧ cur' = cur
      · rw [here.1, here.2, slotSelf]
        exact iff_of_false (by simp [isPage]) isZero
      · rw [slotOther here]
        exact slotted.null inArray'
    · refine .inl ⟨rfl, rfl, ?_⟩
      have notAlone := mt last.mpr isZero
      push Not at notAlone
      exact notAlone
    · intro name' cur' q isQ
      rwa [mem.clearChunk_slot] at isQ

/-- What has happened when a list of objects has been freed. The pages that have gone back are
those in which no other object was live. -/
structure FreedAll (defs : SlotDefs Name) (stop : Nat) (mem : Memory Task Name)
    (lists : Lists Task) (free : List Nat) (objs : List Obj) (after : Memory Task Name)
    (given : List Nat) : Prop where
  holds : Holds stop after.pages (Function.update lists none (some (free ++ given))) (free ++ given)
  slotted : Slotted defs stop after (Function.update lists none (some (free ++ given)))
  live : ∀ name obj, after.Live defs name obj ↔ mem.Live defs name obj ∧ obj ∉ objs
  given_iff : ∀ p, p ∈ given ↔ (∃ obj ∈ objs, obj.1 = p) ∧
    ∀ name obj, mem.Live defs name obj → obj.1 = p → obj ∈ objs
  nodup : given.Nodup
  slots : ∀ {name cur q}, (after.slots name cur).slot = some q → (mem.slots name cur).slot = some q

theorem Slotted.freeSlots (slotted : Slotted defs stop mem lists)
    (holds : Holds stop mem.pages lists free) {objs : List Obj} (nodup : objs.Nodup)
    (live : ∀ obj ∈ objs, ∃ name, mem.Live defs name obj) :
    ∃ after given, objs.foldlM Memory.freeSlot mem = .ok after ∧
      FreedAll defs stop mem lists free objs after given := by
  induction objs generalizing mem lists free with
  | nil =>
    have same : Function.update lists none (some (free ++ [])) = lists := by
      rw [append_nil, ← holds.isFree, Function.update_eq_self]
    refine ⟨mem, [], rfl, ?_, ?_, ?_, ?_, nodup_nil, id⟩
    · rw [same, append_nil]
      exact holds
    · rw [same]
      exact slotted
    · intro name obj
      exact (and_iff_left not_mem_nil).symm
    · intro p
      refine iff_of_false not_mem_nil ?_
      rintro ⟨⟨obj, member, _⟩, _⟩
      cases member
  | cons obj objs induction =>
    rcases nodup_cons.mp nodup with ⟨notMem, restNodup⟩
    rcases live obj mem_cons_self with ⟨name, isLive⟩
    rcases slotted.freeSlot holds isLive with ⟨mid, lists', free', freed, done⟩
    have restLive : ∀ other ∈ objs, ∃ name, mid.Live defs name other := by
      intro other member
      rcases live other (mem_cons_of_mem _ member) with ⟨name', otherLive⟩
      refine ⟨name', (done.live name' other).mpr ⟨otherLive, ?_⟩⟩
      rintro rfl
      exact notMem member
    rcases induction done.slotted done.holds restNodup restLive with
      ⟨after, given, ran, rest⟩
    have folded : (obj :: objs).foldlM Memory.freeSlot mem = .ok after := by
      rw [foldlM_cons, freed]
      exact ran
    have restGiven : ∀ p, p ∈ given ↔ (∃ other ∈ objs, other.1 = p) ∧
        ∀ name other, mem.Live defs name other → other ≠ obj → other.1 = p → other ∈ objs := by
      intro p
      rw [rest.given_iff]
      simp only [done.live, and_imp]
    have liveAfter : ∀ name other, after.Live defs name other ↔
        mem.Live defs name other ∧ other ∉ obj :: objs := by
      intro name' other
      rw [rest.live, done.live, mem_cons, not_or, and_assoc]
    have slotsAfter : ∀ {name cur q}, (after.slots name cur).slot = some q →
        (mem.slots name cur).slot = some q := fun isQ => done.slots (rest.slots isQ)
    rcases done.lists with
      ⟨rfl, rfl, name', other, otherLive, samePage, different⟩ | ⟨rfl, rfl, alone⟩
    · -- Another object stays in the page.
      refine ⟨after, given, folded, rest.holds, rest.slotted, liveAfter, ?_, rest.nodup, slotsAfter⟩
      intro p
      rw [restGiven]
      constructor
      · rintro ⟨⟨first, member, inP⟩, covered⟩
        refine ⟨⟨first, mem_cons_of_mem _ member, inP⟩, ?_⟩
        intro name'' third thirdLive thirdIn
        by_cases isObj : third = obj
        · exact isObj ▸ mem_cons_self
        · exact mem_cons_of_mem _ (covered name'' third thirdLive isObj thirdIn)
      · rintro ⟨⟨first, member, inP⟩, covered⟩
        have coveredRest : ∀ name third, mem.Live defs name third → third ≠ obj →
            third.1 = p → third ∈ objs := fun name'' third thirdLive notObj thirdIn =>
          (mem_cons.mp (covered name'' third thirdLive thirdIn)).resolve_left notObj
        refine ⟨?_, coveredRest⟩
        rcases mem_cons.mp member with rfl | member
        · exact ⟨other, coveredRest name' other otherLive different (samePage.trans inP),
            samePage.trans inP⟩
        · exact ⟨first, member, inP⟩
    · -- The page has gone back with this object.
      have notAgain : obj.1 ∉ given := by
        intro again
        rcases ((restGiven obj.1).mp again).1 with ⟨other, member, inPage⟩
        rcases live other (mem_cons_of_mem _ member) with ⟨name', otherLive⟩
        exact notMem (alone name' other otherLive inPage ▸ member)
      refine ⟨after, obj.1 :: given, folded, ?_, ?_, liveAfter, ?_,
        nodup_cons.mpr ⟨notAgain, rest.nodup⟩, slotsAfter⟩
      · have holdsRest := rest.holds
        rw [Function.update_idem, append_assoc] at holdsRest
        exact holdsRest
      · have slottedRest := rest.slotted
        rw [Function.update_idem, append_assoc] at slottedRest
        exact slottedRest
      · intro p
        rw [mem_cons, restGiven]
        constructor
        · rintro (rfl | ⟨⟨first, member, inP⟩, covered⟩)
          · refine ⟨⟨obj, mem_cons_self, rfl⟩, ?_⟩
            intro name' other otherLive inPage
            exact alone name' other otherLive inPage ▸ mem_cons_self
          · refine ⟨⟨first, mem_cons_of_mem _ member, inP⟩, ?_⟩
            intro name'' third thirdLive thirdIn
            by_cases isObj : third = obj
            · exact isObj ▸ mem_cons_self
            · exact mem_cons_of_mem _ (covered name'' third thirdLive isObj thirdIn)
        · rintro ⟨⟨first, member, inP⟩, covered⟩
          rcases mem_cons.mp member with rfl | member
          · exact .inl inP.symm
          · exact .inr ⟨⟨first, member, inP⟩, fun name'' third thirdLive notObj thirdIn =>
              (mem_cons.mp (covered name'' third thirdLive thirdIn)).resolve_left notObj⟩

end
end Tnix.Mem
