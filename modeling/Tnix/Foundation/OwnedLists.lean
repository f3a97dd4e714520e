import Mathlib.Data.List.Nodup

/-! # Lists of owners

No value is on the lists of two owners, or twice on one list. -/

namespace Tnix

open Function

structure OwnedLists {Owner Value : Type} (lists : Owner → List Value) : Prop where
  nodup : ∀ owner, (lists owner).Nodup
  unique : ∀ left right value, value ∈ lists left → value ∈ lists right → left = right

namespace OwnedLists

variable {Owner Value : Type} {lists fewer : Owner → List Value} {owner other : Owner}
  {value new : Value}

theorem of_sublist (owned : OwnedLists lists)
    (sublist : ∀ other, (fewer other).Sublist (lists other)) : OwnedLists fewer where
  nodup := fun other => (sublist other).nodup (owned.nodup other)
  unique := fun left right value inLeft inRight => owned.unique left right value
    ((sublist left).subset inLeft) ((sublist right).subset inRight)

variable [DecidableEq Owner]

theorem mem_push : value ∈ update lists owner (lists owner ++ [new]) other ↔
    value ∈ lists other ∨ other = owner ∧ value = new := by
  by_cases same : other = owner
  · subst same
    simp
  · simp [same]

theorem push (owned : OwnedLists lists) (fresh : ∀ other, new ∉ lists other) :
    OwnedLists (update lists owner (lists owner ++ [new])) := by
  constructor
  · intro other
    by_cases same : other = owner
    · subst same
      rw [update_self]
      exact (owned.nodup other).append (List.nodup_singleton new) (by simpa using fresh other)
    · rw [update_of_ne same]
      exact owned.nodup other
  · intro left right value inLeft inRight
    rcases mem_push.mp inLeft with leftOld | ⟨rfl, rfl⟩ <;>
      rcases mem_push.mp inRight with rightOld | ⟨rightOwner, isNew⟩
    · exact owned.unique left right value leftOld rightOld
    · exact absurd (isNew ▸ leftOld) (fresh left)
    · exact absurd rightOld (fresh right)
    · exact rightOwner.symm

theorem sublist_update {list : List Value} (sublist : list.Sublist (lists owner)) (other : Owner) :
    (update lists owner list other).Sublist (lists other) := by
  by_cases same : other = owner
  · subst same
    rwa [update_self]
  · rw [update_of_ne same]

variable [DecidableEq Value]

theorem mem_erase (owned : OwnedLists lists) (member : new ∈ lists owner) :
    value ∈ update lists owner ((lists owner).erase new) other ↔
      value ∈ lists other ∧ value ≠ new := by
  by_cases same : other = owner
  · subst same
    rw [update_self, (owned.nodup other).mem_erase_iff, and_comm]
  · rw [update_of_ne same]
    refine ⟨fun inOther => ⟨inOther, ?_⟩, And.left⟩
    rintro rfl
    exact same (owned.unique other owner value inOther member)

theorem erase (owned : OwnedLists lists) :
    OwnedLists (update lists owner ((lists owner).erase new)) :=
  owned.of_sublist (sublist_update List.erase_sublist)

end OwnedLists
end Tnix
