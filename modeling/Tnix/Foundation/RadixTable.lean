import Mathlib.Data.Finset.Card

/-! # Tables of several levels

An entry of a part of a table is absent, a leaf, or leads to a part of the next level. A path
lists the indices that a walk uses, from the root on. -/

namespace Tnix

open Function

inductive Reading (Place : Type)
  | absent
  | leaf
  | table (next : Place)
  deriving DecidableEq

namespace Radix

variable {Place Index Entry : Type} (read : Entry → Reading Place)

def follow (memory : Place → Index → Entry) : Place → List Index → Option Place
  | place, [] => some place
  | place, index :: rest =>
    match read (memory place index) with
    | .table next => follow memory next rest
    | .absent => none
    | .leaf => none

/-- The leaf on a path, with the indices that are left of it. -/
def lookup (memory : Place → Index → Entry) : Place → List Index → Option (Entry × List Index)
  | _, [] => none
  | place, index :: rest =>
    match read (memory place index) with
    | .table next => lookup memory next rest
    | .absent => none
    | .leaf => some (memory place index, rest)

variable {read} {memory memory' : Place → Index → Entry} {root place fresh : Place}
  {path other rest : List Index} {index : Index} {entry : Entry} {depth : Nat}

/-! ## Walks -/

section
variable (reaches : follow read memory root path = some place)
include reaches

theorem follow_append : follow read memory root (path ++ rest) = follow read memory place rest := by
  induction path generalizing root with
  | nil =>
    cases reaches
    rfl
  | cons first path induction =>
    rw [List.cons_append, follow]
    rw [follow] at reaches
    cases reading : read (memory root first) with
    | absent =>
      rw [reading] at reaches
      cases reaches
    | leaf =>
      rw [reading] at reaches
      cases reaches
    | table next =>
      rw [reading] at reaches
      exact induction reaches

theorem lookup_append : lookup read memory root (path ++ rest) = lookup read memory place rest := by
  induction path generalizing root with
  | nil =>
    cases reaches
    rfl
  | cons first path induction =>
    rw [List.cons_append, lookup]
    rw [follow] at reaches
    cases reading : read (memory root first) with
    | absent =>
      rw [reading] at reaches
      cases reaches
    | leaf =>
      rw [reading] at reaches
      cases reaches
    | table next =>
      rw [reading] at reaches
      exact induction reaches

end

theorem follow_of_lookup (found : lookup read memory root (index :: path) = some (entry, rest))
    (below : rest.length < path.length) : ∃ next, follow read memory root [index] = some next := by
  rw [lookup] at found
  rw [follow]
  cases reading : read (memory root index) with
  | absent =>
    rw [reading] at found
    cases found
  | leaf =>
    rw [reading] at found
    cases found
    exact absurd below (Nat.lt_irrefl _)
  | table next => exact ⟨next, rfl⟩

theorem read_of_lookup (found : lookup read memory root path = some (entry, rest)) :
    read entry = .leaf := by
  induction path generalizing root with
  | nil => cases found
  | cons index path induction =>
    rw [lookup] at found
    cases reading : read (memory root index) with
    | absent =>
      rw [reading] at found
      cases found
    | leaf =>
      rw [reading] at found
      cases found
      exact reading
    | table next =>
      rw [reading] at found
      exact induction found

/-- The memories have the same entries wherever a walk along the path looks. -/
def AgreeAlong (read : Entry → Reading Place) (memory memory' : Place → Index → Entry)
    (root : Place) (path : List Index) : Prop :=
  ∀ before index rest place, path = before ++ index :: rest →
    follow read memory root before = some place → memory' place index = memory place index

namespace AgreeAlong

theorem tail {next : Place} (agree : AgreeAlong read memory memory' root (index :: path))
    (reading : read (memory root index) = .table next) :
    AgreeAlong read memory memory' next path := by
  intro before later rest place isPath reaches
  have longer : index :: path = (index :: before) ++ later :: rest := by
    rw [isPath, List.cons_append]
  refine agree _ _ _ _ longer ?_
  rw [follow, reading]
  exact reaches

variable (agree : AgreeAlong read memory memory' root path)
include agree

theorem follow_eq : follow read memory' root path = follow read memory root path := by
  induction path generalizing root with
  | nil => rfl
  | cons index path induction =>
    have same : memory' root index = memory root index := agree [] _ _ _ rfl rfl
    rw [follow, follow, same]
    cases reading : read (memory root index) with
    | absent => rfl
    | leaf => rfl
    | table next => exact induction (agree.tail reading)

theorem lookup_eq : lookup read memory' root path = lookup read memory root path := by
  induction path generalizing root with
  | nil => rfl
  | cons index path induction =>
    have same : memory' root index = memory root index := agree [] _ _ _ rfl rfl
    rw [lookup, lookup, same]
    cases reading : read (memory root index) with
    | absent => rfl
    | leaf => rfl
    | table next => exact induction (agree.tail reading)

end AgreeAlong

/-! ## Trees -/

def Reaches (read : Entry → Reading Place) (memory : Place → Index → Entry) (root : Place)
    (depth : Nat) (place : Place) : Prop :=
  ∃ path : List Index, path.length < depth ∧ follow read memory root path = some place

/-- No part of the table is behind two paths. -/
structure Tree (read : Entry → Reading Place) (memory : Place → Index → Entry) (root : Place)
    (depth : Nat) : Prop where
  distinct : ∀ {path other : List Index} {place}, path.length < depth → other.length < depth →
    follow read memory root path = some place → follow read memory root other = some place →
    path = other

/-! ### A table without entries -/

section
variable (blank : ∀ index, read (memory root index) = .absent)
include blank

theorem lookup_of_blank (path : List Index) : lookup read memory root path = none := by
  cases path with
  | nil => rfl
  | cons index rest => rw [lookup, blank index]

theorem follow_of_blank (reaches : follow read memory root path = some place) :
    path = [] ∧ place = root := by
  cases path with
  | nil =>
    cases reaches
    exact ⟨rfl, rfl⟩
  | cons index rest =>
    rw [follow, blank index] at reaches
    cases reaches

theorem Tree.of_blank (depth : Nat) : Tree read memory root depth := by
  constructor
  intro path other place _ _ reachesPath reachesOther
  rw [(follow_of_blank blank reachesPath).1, (follow_of_blank blank reachesOther).1]

end

section
variable (same : ∀ place, Reaches read memory root depth place → memory' place = memory place)
include same

theorem agreeAlong_of_unreached
    (within : path.length ≤ depth) : AgreeAlong read memory memory' root path := by
  intro before index rest place isPath reaches
  have shorter : before.length < depth := by
    rw [isPath, List.length_append, List.length_cons] at within
    omega
  rw [same place ⟨before, shorter, reaches⟩]

theorem reaches_of_unreached
    : Reaches read memory' root depth place ↔ Reaches read memory root depth place := by
  constructor
  · rintro ⟨path, short, reaches⟩
    rw [(agreeAlong_of_unreached same short.le).follow_eq] at reaches
    exact ⟨path, short, reaches⟩
  · rintro ⟨path, short, reaches⟩
    refine ⟨path, short, ?_⟩
    rw [(agreeAlong_of_unreached same short.le).follow_eq]
    exact reaches

end

theorem Tree.of_unreached (tree : Tree read memory root depth)
    (same : ∀ place, Reaches read memory root depth place → memory' place = memory place) :
    Tree read memory' root depth := by
  constructor
  intro path other place shortPath shortOther reachesPath reachesOther
  rw [(agreeAlong_of_unreached same shortPath.le).follow_eq] at reachesPath
  rw [(agreeAlong_of_unreached same shortOther.le).follow_eq] at reachesOther
  exact tree.distinct shortPath shortOther reachesPath reachesOther

def missing [DecidableEq Index] (read : Entry → Reading Place) (memory : Place → Index → Entry)
    (root : Place) (paths : Finset (List Index)) : Finset (List Index) :=
  paths.filter fun path => (follow read memory root path).isNone

theorem mem_missing [DecidableEq Index] {paths : Finset (List Index)} :
    path ∈ missing read memory root paths ↔ path ∈ paths ∧ follow read memory root path = none := by
  rw [missing, Finset.mem_filter, Option.isNone_iff_eq_none]

/-! ## A store to an entry -/

variable [DecidableEq Place] [DecidableEq Index]

def store (memory : Place → Index → Entry) (place : Place) (index : Index) (entry : Entry) :
    Place → Index → Entry :=
  update memory place (update (memory place) index entry)

theorem store_self : store memory place index entry place index = entry := by
  rw [store, update_self, update_self]

theorem store_of_ne {place' : Place} {index' : Index}
    (different : ¬ (place' = place ∧ index' = index)) :
    store memory place index entry place' index' = memory place' index' := by
  by_cases same : place' = place
  · subst same
    rw [store, update_self, update_of_ne fun equal => different ⟨rfl, equal⟩]
  · rw [store, update_of_ne same]

theorem store_place_of_ne {place' : Place} (different : place' ≠ place) :
    store memory place index entry place' = memory place' :=
  update_of_ne different _ _

namespace Tree

variable (tree : Tree read memory root depth) (short : path.length < depth)
  (reaches : follow read memory root path = some place)
include tree short reaches

theorem agreeAlong_store (within : other.length ≤ depth) (elsewhere : ¬ path ++ [index] <+: other) :
    AgreeAlong read memory (store memory place index entry) root other := by
  intro before later rest place' isPath reachesHere
  apply store_of_ne
  rintro ⟨rfl, rfl⟩
  apply elsewhere
  have shorter : before.length < depth := by
    rw [isPath, List.length_append, List.length_cons] at within
    omega
  rw [tree.distinct short shorter reaches reachesHere, isPath]
  exact ⟨rest, by simp⟩

theorem follow_store_self :
    follow read (store memory place index entry) root path = some place := by
  have elsewhere : ¬ path ++ [index] <+: path := by
    intro isPrefix
    have longer := isPrefix.length_le
    rw [List.length_append, List.length_singleton] at longer
    omega
  rw [(tree.agreeAlong_store short reaches short.le elsewhere).follow_eq, reaches]

theorem lookup_store (within : other.length ≤ depth) (elsewhere : ¬ path ++ [index] <+: other) :
    lookup read (store memory place index entry) root other = lookup read memory root other :=
  (tree.agreeAlong_store short reaches within elsewhere).lookup_eq

theorem lookup_store_self :
    lookup read (store memory place index entry) root (path ++ index :: rest) =
      match read entry with
      | .table next => lookup read (store memory place index entry) next rest
      | .absent => none
      | .leaf => some (entry, rest) := by
  rw [lookup_append (tree.follow_store_self short reaches), lookup, store_self]

theorem missing_store {paths : Finset (List Index)} (within : ∀ other ∈ paths, other.length ≤ depth)
    (elsewhere : ∀ other ∈ paths, ¬ path ++ [index] <+: other) :
    missing read (store memory place index entry) root paths = missing read memory root paths := by
  refine Finset.filter_congr fun other isPath => ?_
  rw [(tree.agreeAlong_store short reaches (within other isPath)
    (elsewhere other isPath)).follow_eq]

theorem follow_of_cut (cut : path.length + 1 < depth → ∀ next, read entry ≠ .table next)
    (within : other.length < depth) {place' : Place}
    (reachesAfter : follow read (store memory place index entry) root other = some place') :
    follow read memory root other = some place' := by
  by_cases elsewhere : path ++ [index] <+: other
  · rcases elsewhere with ⟨rest, rfl⟩
    rw [List.append_assoc, follow_append (tree.follow_store_self short reaches),
      List.singleton_append, follow, store_self] at reachesAfter
    cases reading : read entry with
    | absent =>
      rw [reading] at reachesAfter
      cases reachesAfter
    | leaf =>
      rw [reading] at reachesAfter
      cases reachesAfter
    | table next =>
      rw [List.length_append, List.length_append, List.length_singleton] at within
      exact absurd reading (cut (by omega) next)
  · rwa [(tree.agreeAlong_store short reaches within.le elsewhere).follow_eq] at reachesAfter

theorem cut (cut : path.length + 1 < depth → ∀ next, read entry ≠ .table next) :
    Tree read (store memory place index entry) root depth := by
  constructor
  intro first second place' shortFirst shortSecond reachesFirst reachesSecond
  exact tree.distinct shortFirst shortSecond
    (tree.follow_of_cut short reaches cut shortFirst reachesFirst)
    (tree.follow_of_cut short reaches cut shortSecond reachesSecond)

end Tree

/-! ## A new part -/

/-- The memory with a part that has no entries yet, and an entry that leads to it. -/
def install (memory : Place → Index → Entry) (place : Place) (index : Index) (fresh : Place)
    (blank entry : Entry) : Place → Index → Entry :=
  store (update memory fresh fun _ => blank) place index entry

section

omit [DecidableEq Index] in
theorem cleared_same (blank : Entry) (unreached : ¬ Reaches read memory root depth fresh) :
    ∀ place, Reaches read memory root depth place →
      update memory fresh (fun _ => blank) place = memory place := by
  intro place' isReached
  apply update_of_ne
  rintro rfl
  exact unreached isReached

variable {blank : Entry} (tree : Tree read memory root depth) (deeper : path.length + 1 < depth)
  (reaches : follow read memory root path = some place)
  (unreached : ¬ Reaches read memory root depth fresh)
  (absent : read (memory place index) = .absent) (isBlank : read blank = .absent)
  (leads : read entry = .table fresh)

omit [DecidableEq Index] in
include deeper reaches unreached in
theorem cleared_reaches (blank : Entry) :
    follow read (update memory fresh fun _ => blank) root path = some place := by
  rw [(agreeAlong_of_unreached (cleared_same blank unreached) (by omega)).follow_eq, reaches]

include tree deeper reaches unreached
include leads

theorem follow_install_self :
    follow read (install memory place index fresh blank entry) root (path ++ [index]) =
      some fresh := by
  have short : path.length < depth := by omega
  have cleared := tree.of_unreached (cleared_same blank unreached)
  rw [install, follow_append (cleared.follow_store_self short
    (cleared_reaches deeper reaches unreached blank)), follow, store_self, leads]
  rfl

omit tree leads in
include isBlank in
theorem install_fresh (later : Index) :
    read (install memory place index fresh blank entry fresh later) = .absent := by
  have different : ¬ (fresh = place ∧ later = index) := by
    rintro ⟨rfl, _⟩
    exact unreached ⟨path, by omega, reaches⟩
  rw [install, store_of_ne different, update_self, isBlank]

include absent isBlank

theorem lookup_install (within : other.length ≤ depth) :
    lookup read (install memory place index fresh blank entry) root other =
      lookup read memory root other := by
  have short : path.length < depth := by omega
  have same := cleared_same blank unreached
  by_cases behind : path ++ [index] <+: other
  · rcases behind with ⟨rest, rfl⟩
    have before : lookup read memory root (path ++ [index] ++ rest) = none := by
      rw [List.append_assoc, lookup_append reaches, List.singleton_append, lookup, absent]
    rw [before, lookup_append (follow_install_self tree deeper reaches unreached leads)]
    cases rest with
    | nil => rfl
    | cons later rest =>
      rw [lookup, install_fresh deeper reaches unreached isBlank]
  · rw [install, (tree.of_unreached same).lookup_store short
      (cleared_reaches deeper reaches unreached blank) within behind,
      (agreeAlong_of_unreached same within).lookup_eq]

theorem follow_install (within : other.length < depth) (place' : Place) :
    follow read (install memory place index fresh blank entry) root other = some place' ↔
      follow read memory root other = some place' ∨ (other = path ++ [index] ∧ place' = fresh) := by
  have short : path.length < depth := by omega
  have same := cleared_same blank unreached
  have self : follow read (install memory place index fresh blank entry) root
      (path ++ [index]) = some fresh :=
    follow_install_self tree deeper reaches unreached leads
  by_cases behind : path ++ [index] <+: other
  · rcases behind with ⟨rest, rfl⟩
    have before : follow read memory root (path ++ [index] ++ rest) = none := by
      rw [List.append_assoc, follow_append reaches, List.singleton_append, follow, absent]
    rw [before, follow_append self]
    cases rest with
    | nil => simp [follow, eq_comm]
    | cons later rest =>
      rw [follow, install_fresh deeper reaches unreached isBlank]
      simp
  · have notPath : other ≠ path ++ [index] := by
      rintro rfl
      exact behind (List.prefix_refl _)
    rw [install, ((tree.of_unreached same).agreeAlong_store short
      (cleared_reaches deeper reaches unreached blank) within.le behind).follow_eq,
      (agreeAlong_of_unreached same within.le).follow_eq]
    simp [notPath]

theorem install_tree :
    Tree read (install memory place index fresh blank entry) root depth := by
  constructor
  intro first second place' shortFirst shortSecond reachesFirst reachesSecond
  rw [follow_install tree deeper reaches unreached absent isBlank leads shortFirst]
    at reachesFirst
  rw [follow_install tree deeper reaches unreached absent isBlank leads shortSecond]
    at reachesSecond
  rcases reachesFirst with reachesFirst | ⟨isFirst, isFresh⟩ <;>
    rcases reachesSecond with reachesSecond | ⟨isSecond, isFresh'⟩
  · exact tree.distinct shortFirst shortSecond reachesFirst reachesSecond
  · rw [isFresh'] at reachesFirst
    exact absurd ⟨first, shortFirst, reachesFirst⟩ unreached
  · rw [isFresh] at reachesSecond
    exact absurd ⟨second, shortSecond, reachesSecond⟩ unreached
  · rw [isFirst, isSecond]

theorem missing_install {paths : Finset (List Index)}
    (within : ∀ other ∈ paths, other.length < depth) (isPath : path ++ [index] ∈ paths) :
    (missing read (install memory place index fresh blank entry) root paths).card + 1 ≤
      (missing read memory root paths).card := by
  have wasMissing : path ++ [index] ∈ missing read memory root paths := by
    rw [mem_missing, follow_append reaches, follow, absent]
    exact ⟨isPath, rfl⟩
  have fewer : missing read (install memory place index fresh blank entry) root paths ⊆
      (missing read memory root paths).erase (path ++ [index]) := by
    intro other isMissing
    rw [mem_missing] at isMissing
    rw [Finset.mem_erase, mem_missing]
    have noPlace : ∀ place', follow read (install memory place index fresh blank entry) root
        other ≠ some place' := by
      intro place'
      rw [isMissing.2]
      exact (Option.some_ne_none place').symm
    refine ⟨?_, isMissing.1, ?_⟩
    · rintro rfl
      exact noPlace fresh (follow_install_self tree deeper reaches unreached leads)
    · rw [Option.eq_none_iff_forall_ne_some]
      intro place' reachesBefore
      exact noPlace place' ((follow_install tree deeper reaches unreached absent isBlank leads
        (within other isMissing.1) place').mpr (.inl reachesBefore))
  rw [← Finset.card_erase_add_one wasMissing]
  exact Nat.succ_le_succ (Finset.card_le_card fewer)

end
end Radix
end Tnix
