import Mathlib.Data.List.Range
import Tnix.Config
import Tnix.Util.List

/-! # `alloc.c`

The physical pages. One list node in each page puts it on the free list or on the list of a
task. A page is named by its index in `phy_mem`. -/

namespace Tnix.Mem

open Function List

/-- The nodes that lists of pages are made of: `none` is `pages_head`, and `some t` is
`t->mm_struct->page_head`. -/
inductive Node (Task : Type)
  | page (p : Nat)
  | head (list : Option Task)
  deriving DecidableEq

/-- `content` is what is in the memory of each page. -/
structure Pages (Task Content : Type) where
  links : NodeLinks (Node Task)
  inuse : Nat → Bool
  content : Nat → Content

inductive MemFault
  | panic (message : String)
  /-- A pointer that is `NULL`, or one to something else, is followed. -/
  | null
  /-- A loop does not end. -/
  | endless
  deriving DecidableEq

def follow {α : Type} : Option α → Except MemFault α
  | some value => .ok value
  | none => .error .null

variable {Task Content : Type} [DecidableEq Task]

namespace Pages

def reserved (stop p : Nat) : Bool := PHY_MEMORY + p * PGSIZE < alignUp stop PGSIZE

def initPage (stop : Nat) (pages : Pages Task Content) (p : Nat) :
    Except MemFault (Pages Task Content) :=
  if reserved stop p then .ok { pages with inuse := update pages.inuse p true }
  else do
    let links ← follow (Util.listPushback pages.links (.head none) (.page p))
    .ok { pages with inuse := update pages.inuse p false, links := links }

def initMemory (stop : Nat) (pages : Pages Task Content) : Except MemFault (Pages Task Content) :=
  (List.range NPAGE).foldlM (initPage stop) pages

def noLinks : NodeLinks (Node Task) := ⟨fun _ => none, fun _ => none⟩

def static (content : Nat → Content) : Pages Task Content where
  links := Util.listInit noLinks (.head none)
  inuse _ := false
  content := content

def allocPage (zero : Content) (pages : Pages Task Content) :
    Except MemFault (Nat × Pages Task Content) := do
  let node ← follow (pages.links.next (.head none))
  match node with
  | .head none => .error (.panic "alloc_page: memory exhausted")
  | .head (some _) => .error .null
  | .page p => do
    let links ← follow (Util.listRemove pages.links node)
    .ok (p, {
      links := links
      inuse := update pages.inuse p true
      content := update pages.content p zero })

def allocPageForTask (zero : Content) (pages : Pages Task Content) (t : Task) :
    Except MemFault (Nat × Pages Task Content) := do
  let (p, pages) ← pages.allocPage zero
  let links ← follow (Util.listPushback pages.links (.head (some t)) (.page p))
  .ok (p, { pages with links := links })

def freePage (pages : Pages Task Content) (p : Nat) : Except MemFault (Pages Task Content) :=
  if pages.inuse p then do
    let links ← follow (Util.listPushback pages.links (.head none) (.page p))
    .ok { pages with inuse := update pages.inuse p false, links := links }
  else .error (.panic "free_page: double free page")

def freePageForTask (pages : Pages Task Content) (p : Nat) :
    Except MemFault (Pages Task Content) := do
  let links ← follow (Util.listRemove pages.links (.page p))
  { pages with links := links }.freePage p

/-- The loop of `clean_mm_source` over `page_head`, from a node on. -/
def cleanPagesFrom (t : Task) : Nat → Node Task → Pages Task Content →
    Except MemFault (Pages Task Content)
  | 0, _, _ => .error .endless
  | fuel + 1, node, pages =>
    if node = .head (some t) then .ok pages
    else
      match node with
      | .head _ => .error .null
      | .page p => do
        let after ← follow (pages.links.next node)
        let pages ← pages.freePageForTask p
        cleanPagesFrom t fuel after pages

/-- There are no more turns than pages. -/
def cleanPages (pages : Pages Task Content) (t : Task) : Except MemFault (Pages Task Content) := do
  let node ← follow (pages.links.next (.head (some t)))
  cleanPagesFrom t (NPAGE + 1) node pages

end Pages

/-! ## Lists of pages -/

/-- The pages of every list that is there: `none` is the list of the free pages. -/
abbrev Lists (Task : Type) := Option Task → Option (List Nat)

/-- Every list is circular, and no page is on two lists. -/
structure Threaded (links : NodeLinks (Node Task)) (lists : Lists Task) : Prop where
  circular : ∀ {h list}, lists h = some list → links.Circular (.head h) (list.map .page)
  once : ∀ {h other list list' p}, lists h = some list → lists other = some list' →
    p ∈ list → p ∈ list' → h = other

def Lists.Off (lists : Lists Task) (p : Nat) : Prop := ∀ h list, lists h = some list → p ∉ list

theorem Lists.Off.update {lists : Lists Task} {p : Nat} (off : lists.Off p) (h : Option Task)
    {list : List Nat} (notIn : p ∉ list) : Lists.Off (update lists h (some list)) p := by
  intro other kept isKept member
  by_cases here : other = h
  · subst here
    rw [update_self] at isKept
    cases isKept
    exact notIn member
  · rw [update_of_ne here] at isKept
    exact off _ _ isKept member

namespace Threaded

variable {links : NodeLinks (Node Task)} {lists : Lists Task} {h : Option Task} {list : List Nat}
  {p : Nat}

omit [DecidableEq Task] in
theorem page_mem {q : Nat} {other : Option Task} :
    Node.page q ∈ Node.head other :: list.map Node.page ↔ q ∈ list := by
  simp

omit [DecidableEq Task] in
theorem head_mem {other : Option Task} :
    Node.head other ∈ Node.head h :: list.map Node.page ↔ other = h := by
  simp

omit [DecidableEq Task] in
theorem nodup (threaded : Threaded links lists) (isList : lists h = some list) : list.Nodup :=
  List.Nodup.of_map _ (nodup_cons.mp (threaded.circular isList).nodup).2

variable (threaded : Threaded links lists)
include threaded

theorem change {after : NodeLinks (Node Task)} {list' : List Nat}
    (circular : after.Circular (.head h) (list'.map .page))
    (same : ∀ other, other ≠ h → Util.SameAt links after (.head other))
    (samePage : ∀ {other kept q}, other ≠ h → lists other = some kept → q ∈ kept →
      Util.SameAt links after (.page q) ∧ q ∉ list') :
    Threaded after (update lists h (some list')) := by
  constructor
  · intro other kept isKept
    by_cases here : other = h
    · subst here
      rw [update_self] at isKept
      cases isKept
      exact circular
    · rw [update_of_ne here] at isKept
      have sameAt : ∀ x ∈ Node.head other :: kept.map Node.page, Util.SameAt links after x := by
        intro x member
        rcases mem_cons.mp member with rfl | member
        · exact same other here
        · rcases mem_map.mp member with ⟨q, isIn, rfl⟩
          exact (samePage here isKept isIn).1
      exact (threaded.circular isKept).congr (fun x member => (sameAt x member).1)
        fun x member => (sameAt x member).2
  · intro first second firstList secondList q isFirst isSecond inFirst inSecond
    by_cases firstHere : first = h <;> by_cases secondHere : second = h
    · rw [firstHere, secondHere]
    · rw [firstHere, update_self] at isFirst
      rw [update_of_ne secondHere] at isSecond
      cases isFirst
      exact absurd inFirst (samePage secondHere isSecond inSecond).2
    · rw [update_of_ne firstHere] at isFirst
      rw [secondHere, update_self] at isSecond
      cases isSecond
      exact absurd inSecond (samePage firstHere isFirst inFirst).2
    · rw [update_of_ne firstHere] at isFirst
      rw [update_of_ne secondHere] at isSecond
      exact threaded.once isFirst isSecond inFirst inSecond

theorem init (h : Option Task) :
    Threaded (Util.listInit links (.head h)) (update lists h (some [])) := by
  rcases Util.listInit_circular links (.head h) with ⟨circular, same⟩
  refine threaded.change circular ?_ ?_
  · intro other different
    exact same _ fun isHead => different (Node.head.inj isHead)
  · intro other kept q _ _ _
    exact ⟨same _ (by rintro ⟨⟩), not_mem_nil⟩

theorem push (isList : lists h = some list) (off : lists.Off p) :
    ∃ after, Util.listPushback links (.head h) (.page p) = some after ∧
      Threaded after (update lists h (some (list ++ [p]))) := by
  have new : Node.page p ∉ Node.head h :: list.map Node.page := mt page_mem.mp (off _ _ isList)
  rcases Util.listPushback_circular (threaded.circular isList) new with
    ⟨after, pushed, circular, same⟩
  refine ⟨after, pushed, threaded.change (by simpa using circular) ?_ ?_⟩
  · intro other different
    apply same
    rw [mem_cons, head_mem]
    rintro (isPage | isHead)
    · cases isPage
    · exact different isHead
  · intro other kept q different isKept inKept
    have notP : q ≠ p := by
      rintro rfl
      exact off _ _ isKept inKept
    have notIn : q ∉ list := fun inList => different (threaded.once isKept isList inKept inList)
    constructor
    · apply same
      rw [mem_cons, page_mem]
      rintro (isPage | inList)
      · exact notP (Node.page.inj isPage)
      · exact notIn inList
    · rw [mem_append, mem_singleton]
      rintro (inList | isP)
      · exact notIn inList
      · exact notP isP

theorem remove {before behind : List Nat} (isList : lists h = some (before ++ p :: behind)) :
    ∃ after, Util.listRemove links (.page p) = some after ∧
      Threaded after (update lists h (some (before ++ behind))) := by
  have circular := threaded.circular isList
  rw [map_append, map_cons] at circular
  rcases Util.listRemove_circular circular with ⟨after, removed, circular, same⟩
  refine ⟨after, removed, threaded.change (by simpa using circular) ?_ ?_⟩
  · intro other different
    apply same
    rw [← map_cons, ← map_append, head_mem]
    exact different
  · intro other kept q different isKept inKept
    have notIn : q ∉ before ++ p :: behind := fun inList =>
      different (threaded.once isKept isList inKept inList)
    constructor
    · apply same
      rw [← map_cons, ← map_append, page_mem]
      exact notIn
    · intro inRest
      apply notIn
      rw [mem_append] at inRest ⊢
      exact inRest.imp_right (mem_cons_of_mem _)

theorem off_of_removed {before behind : List Nat}
    (isList : lists h = some (before ++ p :: behind)) :
    Lists.Off (update lists h (some (before ++ behind))) p := by
  intro other kept isKept inKept
  by_cases here : other = h
  · subst here
    rw [update_self] at isKept
    cases isKept
    have nodup := perm_middle.nodup_iff.mp (threaded.nodup isList)
    exact (nodup_cons.mp nodup).1 inKept
  · rw [update_of_ne here] at isKept
    exact here (threaded.once isKept isList inKept
      (mem_append_right _ mem_cons_self))

end Threaded

/-! ## Pages -/

/-- The pages and the lists that they are on; a page is not in use when it is on the list of
the free pages. -/
structure Holds (stop : Nat) (pages : Pages Task Content) (lists : Lists Task)
    (free : List Nat) : Prop where
  threaded : Threaded pages.links lists
  isFree : lists none = some free
  inuse : ∀ p < NPAGE, pages.inuse p = false ↔ p ∈ free
  usable : ∀ {h list p}, lists h = some list → p ∈ list →
    p < NPAGE ∧ Pages.reserved stop p = false

structure Loose (stop : Nat) (lists : Lists Task) (p : Nat) : Prop where
  inMemory : p < NPAGE
  notReserved : Pages.reserved stop p = false
  off : lists.Off p

section
variable {stop : Nat} {pages : Pages Task Content} {lists : Lists Task} {free list : List Nat}
  {zero : Content} {p : Nat} {t : Task}

namespace Holds

theorem allocPage_nil (holds : Holds stop pages lists []) :
    pages.allocPage zero = .error (.panic "alloc_page: memory exhausted") := by
  have empty : pages.links.next (.head none) = some (.head none) :=
    (holds.threaded.circular holds.isFree).path.1
  rw [Pages.allocPage, empty]
  rfl

theorem allocPage_cons (holds : Holds stop pages lists (p :: free)) :
    ∃ after, pages.allocPage zero = .ok (p, after) ∧
      Holds stop after (update lists none (some free)) free ∧
      Loose stop (update lists none (some free)) p ∧
      after.inuse = update pages.inuse p true ∧
      after.content = update pages.content p zero := by
  have first : pages.links.next (.head none) = some (.page p) :=
    (holds.threaded.circular holds.isFree).path.1.1
  have isFree : lists none = some ([] ++ p :: free) := holds.isFree
  rcases holds.threaded.remove isFree with ⟨links, removed, threaded⟩
  have off := holds.threaded.off_of_removed isFree
  have usable := holds.usable holds.isFree mem_cons_self
  rw [nil_append] at threaded off
  refine ⟨⟨links, update pages.inuse p true, update pages.content p zero⟩,
    ?_, ⟨threaded, update_self _ _ _, ?_, ?_⟩, ⟨usable.1, usable.2, off⟩, rfl, rfl⟩
  · rw [Pages.allocPage, first]
    simp only [follow, bind, Except.bind, removed]
  · intro q inMemory
    by_cases same : q = p
    · subst same
      refine iff_of_false ?_ (off _ _ (update_self none _ lists))
      simp
    · simp only [update_of_ne same]
      rw [holds.inuse q inMemory, mem_cons]
      exact or_iff_right same
  · intro h kept q isKept inKept
    by_cases here : h = none
    · subst here
      rw [update_self] at isKept
      cases isKept
      exact holds.usable holds.isFree (mem_cons_of_mem _ inKept)
    · rw [update_of_ne here] at isKept
      exact holds.usable isKept inKept

section
variable (holds : Holds stop pages lists free)
include holds

section
variable (loose : Loose stop lists p)
include loose

theorem push_usable {h : Option Task} (isList : lists h = some list) :
    ∀ {other kept q}, update lists h (some (list ++ [p])) other = some kept → q ∈ kept →
      q < NPAGE ∧ Pages.reserved stop q = false := by
  intro other kept q isKept inKept
  by_cases here : other = h
  · subst here
    rw [update_self] at isKept
    cases isKept
    rw [mem_append, mem_singleton] at inKept
    rcases inKept with inList | rfl
    · exact holds.usable isList inList
    · exact ⟨loose.inMemory, loose.notReserved⟩
  · rw [update_of_ne here] at isKept
    exact holds.usable isKept inKept

theorem freePage : ∃ after, pages.freePage p = .ok after ∧
      Holds stop after (update lists none (some (free ++ [p]))) (free ++ [p]) ∧
      after.inuse = update pages.inuse p false ∧ after.content = pages.content := by
  have isInuse : pages.inuse p = true := by
    rw [← Bool.not_eq_false, holds.inuse p loose.inMemory]
    exact loose.off _ _ holds.isFree
  rcases holds.threaded.push holds.isFree loose.off with ⟨links, pushed, threaded⟩
  refine ⟨⟨links, update pages.inuse p false, pages.content⟩, ?_,
    ⟨threaded, update_self _ _ _, ?_, holds.push_usable loose holds.isFree⟩, rfl, rfl⟩
  · rw [Pages.freePage, if_pos isInuse, pushed]
    rfl
  · intro q inMemory
    rw [mem_append, mem_singleton]
    by_cases same : q = p
    · subst same
      exact iff_of_true (update_self _ _ _) (.inr rfl)
    · simp only [update_of_ne same]
      rw [holds.inuse q inMemory]
      exact (or_iff_left same).symm

theorem push_task (isList : lists (some t) = some list) :
    ∃ links, Util.listPushback pages.links (.head (some t)) (.page p) = some links ∧
      Holds stop { pages with links := links }
        (update lists (some t) (some (list ++ [p]))) free := by
  rcases holds.threaded.push isList loose.off with ⟨links, pushed, threaded⟩
  exact ⟨links, pushed, threaded, holds.isFree, holds.inuse, holds.push_usable loose isList⟩

end

theorem remove_task {before behind : List Nat}
    (isList : lists (some t) = some (before ++ p :: behind)) :
    ∃ links, Util.listRemove pages.links (.page p) = some links ∧
      Holds stop { pages with links := links }
        (update lists (some t) (some (before ++ behind))) free ∧
      Loose stop (update lists (some t) (some (before ++ behind))) p := by
  rcases holds.threaded.remove isList with ⟨links, removed, threaded⟩
  have usable := holds.usable isList (mem_append_right _ mem_cons_self)
  refine ⟨links, removed, ⟨threaded, holds.isFree, holds.inuse, ?_⟩, usable.1, usable.2,
    holds.threaded.off_of_removed isList⟩
  intro other kept q isKept inKept
  by_cases here : other = some t
  · subst here
    rw [update_self] at isKept
    cases isKept
    refine holds.usable isList ?_
    rw [mem_append] at inKept ⊢
    exact inKept.imp_right (mem_cons_of_mem _)
  · rw [update_of_ne here] at isKept
    exact holds.usable isKept inKept

end

theorem allocPageForTask (holds : Holds stop pages lists (p :: free))
    (isList : lists (some t) = some list) :
    ∃ after, pages.allocPageForTask zero t = .ok (p, after) ∧
      Holds stop after (update (update lists none (some free)) (some t) (some (list ++ [p]))) free ∧
      after.content = update pages.content p zero := by
  rcases @allocPage_cons _ _ _ _ _ _ _ zero _ holds with
    ⟨afterAlloc, allocated, holdsAlloc, loose, _, content⟩
  have stillList : update lists none (some free) (some t) = some list := by
    rwa [update_of_ne (by rintro ⟨⟩)]
  rcases holdsAlloc.push_task loose stillList with ⟨links, pushed, holdsPush⟩
  refine ⟨_, ?_, holdsPush, content⟩
  rw [Pages.allocPageForTask, allocated]
  simp only [bind, Except.bind, pushed]
  rfl

theorem freePageForTask (holds : Holds stop pages lists free) {before behind : List Nat}
    (isList : lists (some t) = some (before ++ p :: behind)) :
    ∃ after, pages.freePageForTask p = .ok after ∧
      Holds stop after (update (update lists (some t) (some (before ++ behind)))
        none (some (free ++ [p]))) (free ++ [p]) ∧
      after.content = pages.content := by
  rcases holds.remove_task isList with ⟨links, removed, holdsRemove, loose⟩
  rcases holdsRemove.freePage loose with ⟨after, freed, holdsFree, _, content⟩
  refine ⟨after, ?_, holdsFree, content⟩
  rw [Pages.freePageForTask, removed]
  exact freed

def firstNode (t : Task) : List Nat → Node Task
  | [] => .head (some t)
  | p :: _ => .page p

section
variable (holds : Holds stop pages lists free)
include holds

omit [DecidableEq Task] in
theorem next_head (isList : lists (some t) = some list) :
    pages.links.next (.head (some t)) = some (firstNode t list) := by
  have path := (holds.threaded.circular isList).path
  cases list with
  | nil => exact path.1
  | cons p rest => exact path.1.1

omit [DecidableEq Task] in
theorem next_page (isList : lists (some t) = some (p :: list)) :
    pages.links.next (.page p) = some (firstNode t list) := by
  have path := (holds.threaded.circular isList).path.2
  cases list with
  | nil => exact path.1
  | cons q rest => exact path.1.1

theorem cleanPagesFrom (isList : lists (some t) = some list) {fuel : Nat}
    (enough : list.length < fuel) :
    ∃ after, Pages.cleanPagesFrom t fuel (firstNode t list) pages = .ok after ∧
      Holds stop after (update (update lists (some t) (some [])) none
        (some (free ++ list))) (free ++ list) ∧
      after.content = pages.content := by
  induction list generalizing pages lists free fuel with
  | nil =>
    cases fuel with
    | zero => cases enough
    | succ fuel =>
      refine ⟨pages, if_pos rfl, ?_, rfl⟩
      have sameTask : update lists (some t) (some []) = lists := by
        rw [← isList, update_eq_self]
      rw [append_nil, sameTask, ← holds.isFree, update_eq_self]
      exact holds
  | cons p rest induction =>
    cases fuel with
    | zero => cases enough
    | succ fuel =>
      have isSplit : lists (some t) = some ([] ++ p :: rest) := isList
      rcases holds.freePageForTask isSplit with ⟨afterFree, freed, holdsFree, sameContent⟩
      rw [nil_append] at holdsFree
      have restList : update (update lists (some t) (some rest)) none
          (some (free ++ [p])) (some t) = some rest := by
        rw [update_of_ne (by rintro ⟨⟩), update_self]
      rcases induction holdsFree restList (Nat.lt_of_succ_lt_succ enough) with
        ⟨after, cleaned, holdsAfter, content⟩
      refine ⟨after, ?_, ?_, content.trans sameContent⟩
      · have notHead : Node.page p ≠ Node.head (some t) := by rintro ⟨⟩
        simp only [Pages.cleanPagesFrom, firstNode, if_neg notHead, holds.next_page isList,
          follow, bind, Except.bind, freed]
        exact cleaned
      · have notTask : (none : Option Task) ≠ some t := by rintro ⟨⟩
        rw [update_comm notTask, update_idem, update_idem, append_assoc] at holdsAfter
        exact holdsAfter

omit [DecidableEq Task] in
theorem length_le {h : Option Task} (isList : lists h = some list) : list.length ≤ NPAGE := by
  have within : list ⊆ List.range NPAGE :=
    fun p member => mem_range.mpr (holds.usable isList member).1
  have bound := (subperm_of_subset (holds.threaded.nodup isList) within).length_le
  rwa [length_range] at bound

theorem cleanPages (isList : lists (some t) = some list) :
    ∃ after, pages.cleanPages t = .ok after ∧
      Holds stop after (update (update lists (some t) (some [])) none
        (some (free ++ list))) (free ++ list) ∧
      after.content = pages.content := by
  rw [Pages.cleanPages, holds.next_head isList]
  exact holds.cleanPagesFrom isList (Nat.lt_succ_of_le (holds.length_le isList))

theorem listInit (t : Task) :
    Holds stop { pages with links := Util.listInit pages.links (.head (some t)) }
      (update lists (some t) (some [])) free := by
  refine ⟨holds.threaded.init (some t), holds.isFree, holds.inuse, ?_⟩
  intro h kept p isKept inKept
  by_cases here : h = some t
  · rw [here, update_self] at isKept
    cases isKept
    cases inKept
  · rw [update_of_ne here] at isKept
    exact holds.usable isKept inKept

end
end Holds

/-! ## Initialisation -/

def freePages (stop count : Nat) : List Nat :=
  (List.range count).filter fun p => !Pages.reserved stop p

def onlyFree (Task : Type) [DecidableEq Task] (free : List Nat) : Lists Task :=
  update (fun _ => none) none (some free)

theorem mem_freePages {stop count p : Nat} :
    p ∈ freePages stop count ↔ p < count ∧ Pages.reserved stop p = false := by
  simp [freePages]

theorem onlyFree_eq_some {h : Option Task} (isList : onlyFree Task free h = some list) :
    h = none ∧ free = list := by
  by_cases here : h = none
  · rw [here, onlyFree, update_self] at isList
    exact ⟨here, Option.some.inj isList⟩
  · rw [onlyFree, update_of_ne here] at isList
    cases isList

theorem initPages (stop : Nat) (content : Nat → Content) (count : Nat) :
    ∃ pages : Pages Task Content,
      (List.range count).foldlM (Pages.initPage stop) (Pages.static content) = .ok pages ∧
      Threaded pages.links (onlyFree Task (freePages stop count)) ∧
      ∀ p < count, pages.inuse p = false ↔ p ∈ freePages stop count := by
  induction count with
  | zero =>
    refine ⟨Pages.static content, rfl, ?_, fun p less => by cases less⟩
    have noLists : Threaded (Pages.noLinks : NodeLinks (Node Task)) fun _ => none :=
      ⟨by rintro h list ⟨⟩, by rintro h other list list' p ⟨⟩⟩
    exact noLists.init none
  | succ count induction =>
    rcases induction with ⟨pages, ran, threaded, inuse⟩
    have step : (List.range (count + 1)).foldlM (Pages.initPage stop) (Pages.static content) =
        pages.initPage stop count := by
      rw [range_succ, foldlM_append, ran]
      exact bind_pure (pages.initPage stop count)
    rw [step, Pages.initPage]
    by_cases isReserved : Pages.reserved stop count = true
    · have sameFree : freePages stop (count + 1) = freePages stop count := by
        simp [freePages, range_succ, isReserved]
      refine ⟨_, if_pos isReserved, sameFree ▸ threaded, ?_⟩
      intro p less
      rw [sameFree]
      by_cases same : p = count
      · subst same
        refine iff_of_false (by simp) ?_
        rw [mem_freePages]
        exact fun member => Nat.lt_irrefl _ member.1
      · simp only [update_of_ne same]
        exact inuse p (by omega)
    · have oneMore : freePages stop (count + 1) = freePages stop count ++ [count] := by
        simp [freePages, range_succ, isReserved]
      have off : (onlyFree Task (freePages stop count)).Off count := by
        intro h list isList member
        rw [← (onlyFree_eq_some isList).2, mem_freePages] at member
        exact Nat.lt_irrefl _ member.1
      rcases threaded.push (update_self _ _ _) off with ⟨links, pushed, after⟩
      rw [onlyFree, update_idem, ← oneMore] at after
      refine ⟨⟨links, update pages.inuse count false, pages.content⟩, ?_, after, ?_⟩
      · rw [if_neg isReserved, pushed]
        rfl
      · intro p less
        by_cases same : p = count
        · subst same
          refine iff_of_true (by simp) ?_
          rw [oneMore]
          exact mem_append_right _ mem_cons_self
        · simp only [update_of_ne same]
          rw [inuse p (by omega), oneMore, mem_append, mem_singleton]
          exact (or_iff_left same).symm

theorem initMemory_holds (stop : Nat) (content : Nat → Content) :
    ∃ pages : Pages Task Content, (Pages.static content).initMemory stop = .ok pages ∧
      Holds stop pages (onlyFree Task (freePages stop NPAGE)) (freePages stop NPAGE) := by
  rcases @initPages Task _ _ stop content NPAGE with ⟨pages, ran, threaded, inuse⟩
  refine ⟨pages, ran, threaded, update_self _ _ _, inuse, ?_⟩
  intro h list p isList member
  rw [← (onlyFree_eq_some isList).2, mem_freePages] at member
  exact member

end
end Tnix.Mem
