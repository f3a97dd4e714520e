import Mathlib.Data.List.Nodup

/-! # Order of two members of a list

`[left, right].Sublist values` says that `left` stands before `right`. -/

namespace Tnix.ListOrder

universe u
variable {α : Type u}

theorem not_of_before_find {values : List α} {test : α → Bool} {found earlier : α}
    (nodup : values.Nodup) (search : values.find? test = some found)
    (before : [earlier, found].Sublist values) : test earlier = false := by
  rcases List.find?_eq_some_iff_append.mp search with ⟨_, front, back, rfl, rejected⟩
  rcases List.sublist_append_iff.mp before with ⟨first, second, split, inFront, inBack⟩
  have parts := List.nodup_append.mp nodup
  have foundNotFront : found ∉ front := fun member =>
    parts.2.2 found member found (by simp) rfl
  have foundNotBack : found ∉ back := (List.nodup_cons.mp parts.2.1).1
  cases first with
  | nil =>
    -- Then both elements would have to lie in `found :: back`.
    simp only [List.nil_append] at split
    subst split
    exfalso
    cases inBack with
    | cons _ inBack => exact foundNotBack (inBack.subset (by simp))
    | cons_cons _ inBack => exact foundNotBack (inBack.subset (by simp))
  | cons head tail =>
    simp only [List.cons_append, List.cons.injEq] at split
    have member : earlier ∈ front := inFront.subset (by simp [split.1])
    simpa using rejected earlier member

theorem before_of_find {values : List α} {test : α → Bool} {found other : α}
    (search : values.find? test = some found) (member : other ∈ values)
    (meets : test other = true) (different : other ≠ found) :
    [found, other].Sublist values := by
  rcases List.find?_eq_some_iff_append.mp search with ⟨_, front, back, rfl, rejected⟩
  have inBack : other ∈ back := by
    rcases List.mem_append.mp member with inFront | inRest
    · have := rejected other inFront
      simp [meets] at this
    · rcases List.mem_cons.mp inRest with equal | inBack
      · exact absurd equal different
      · exact inBack
  have tailOrder : [found, other].Sublist (found :: back) :=
    List.Sublist.cons_cons found (List.singleton_sublist.mpr inBack)
  exact tailOrder.trans (List.sublist_append_right front _)

section
variable [DecidableEq α] {values : List α}

theorem before_moved {moved other : α} (member : other ∈ values) (different : other ≠ moved) :
    [moved, other].Sublist (moved :: values.erase moved) :=
  List.Sublist.cons_cons moved (List.singleton_sublist.mpr
    ((List.mem_erase_of_ne different).mpr member))

theorem before_of_before_moved {moved left right : α} (leftDifferent : left ≠ moved)
    (rightDifferent : right ≠ moved) (before : [left, right].Sublist values) :
    [left, right].Sublist (moved :: values.erase moved) := by
  have erased := before.erase moved
  rw [List.erase_of_not_mem (by simp [leftDifferent.symm, rightDifferent.symm])] at erased
  exact erased.cons moved

theorem nodup_moved (moved : α) (nodup : values.Nodup) :
    (moved :: values.erase moved).Nodup :=
  List.nodup_cons.mpr ⟨fun member => (nodup.mem_erase_iff.mp member).1 rfl, nodup.erase moved⟩

theorem mem_moved (moved : α) {value : α} (member : value ∈ values) :
    value ∈ moved :: values.erase moved := by
  by_cases same : value = moved
  · simp [same]
  · exact List.mem_cons_of_mem _ ((List.mem_erase_of_ne same).mpr member)

end
end Tnix.ListOrder
