import Mathlib.Data.List.Nodup

/-! # Occupied places

Some of the places of a list hold a value. Filling an empty place adds its value, and
emptying a place takes its value out. -/

namespace Tnix.Occupied

universe u v
variable {ι : Type u} {α : Type v} {places : List ι} {held held' : ι → Option α}

def values (places : List ι) (held : ι → Option α) : List α := places.filterMap held

theorem mem_values {value : α} :
    value ∈ values places held ↔ ∃ place ∈ places, held place = some value :=
  List.mem_filterMap

theorem values_congr (same : ∀ place ∈ places, held' place = held place) :
    values places held' = values places held :=
  List.filterMap_congr same

theorem values_append (places others : List ι) (held : ι → Option α) :
    values (places ++ others) held = values places held ++ values others held :=
  List.filterMap_append

theorem values_fill [DecidableEq ι] {place : ι} {value : α} (distinct : places.Nodup)
    (isPlace : place ∈ places) (empty : held place = none) (filled : held' place = some value)
    (others : ∀ other ∈ places, other ≠ place → held' other = held other) :
    (values places held').Perm (value :: values places held) := by
  have apart := List.perm_cons_erase isPlace
  have rest : values (places.erase place) held' = values (places.erase place) held := by
    refine values_congr fun other isOther => ?_
    rw [distinct.mem_erase_iff] at isOther
    exact others other isOther.2 isOther.1
  have filledFirst : (values places held').Perm (value :: values (places.erase place) held) := by
    have moved := apart.filterMap held'
    rwa [List.filterMap_cons_some filled, ← values, ← values, rest] at moved
  have emptyFirst : (values places held).Perm (values (places.erase place) held) := by
    have moved := apart.filterMap held
    rwa [List.filterMap_cons_none empty] at moved
  exact filledFirst.trans (emptyFirst.symm.cons value)

theorem values_clear {place : ι} {test : α → Bool} (cleared : held' place = none)
    (others : ∀ other ∈ places, other ≠ place → held' other = held other)
    (rejected : ∀ value, held place = some value → test value = false)
    (accepted : ∀ other ∈ places, other ≠ place → ∀ value, held other = some value →
      test value = true) :
    values places held' = (values places held).filter test := by
  rw [values, values, List.filter_filterMap]
  refine List.filterMap_congr fun other isPlace => ?_
  by_cases here : other = place
  · subst here
    rw [cleared]
    cases value : held other with
    | none => rfl
    | some found => rw [Option.filter_some, rejected found value, if_neg Bool.false_ne_true]
  · rw [others other isPlace here]
    cases value : held other with
    | none => rfl
    | some found => rw [Option.filter_some, accepted other isPlace here found value, if_pos rfl]

end Tnix.Occupied
