import Tnix.Foundation.ListOrder

/-! # Keys of a cache with a recency list

Slots carry keys; some slots are in use. All slots start with one blank key, so
only the list order tells a slot in use under the blank key from the slots that
were never used: it stands before them. -/

namespace Tnix

open Function
universe u v
variable {Slot : Type u} {Key : Type v}

structure KeyedCache (order : List Slot) (key : Slot → Key) (Used : Slot → Prop)
    (blank : Key) : Prop where
  nodup : order.Nodup
  complete : ∀ slot, slot ∈ order
  fresh : ∀ slot, ¬ Used slot → key slot = blank
  unique : ∀ left right, Used left → Used right → key left = key right → left = right
  front : ∀ used unused, Used used → key used = blank → ¬ Used unused →
    [used, unused].Sublist order

namespace KeyedCache

variable {order : List Slot} {key : Slot → Key} {Used : Slot → Prop} {blank : Key}

variable (cache : KeyedCache order key Used blank)
include cache

theorem hit [DecidableEq Key] {slot : Slot} {wanted : Key}
    (found : order.find? (fun index => decide (key index = wanted)) = some slot) :
    KeyedCache order key (fun index => Used index ∨ index = slot) blank := by
  have slotKey : key slot = wanted := by simpa using List.find?_some found
  have sole : ∀ other, Used other → key other = key slot → other = slot := by
    intro other used same
    by_cases slotUsed : Used slot
    · exact cache.unique other slot used slotUsed same
    · -- A slot in use under the blank key would have been found before.
      have before := cache.front other slot used
        (same.trans (cache.fresh slot slotUsed)) slotUsed
      have rejected := ListOrder.not_of_before_find cache.nodup found before
      simp [same, slotKey] at rejected
  refine ⟨cache.nodup, cache.complete, ?_, ?_, ?_⟩
  · intro other notUsed
    exact cache.fresh other fun used => notUsed (.inl used)
  · intro left right leftUsed rightUsed same
    rcases leftUsed with leftUsed | rfl <;> rcases rightUsed with rightUsed | rfl
    · exact cache.unique left right leftUsed rightUsed same
    · exact sole left leftUsed same
    · exact (sole right rightUsed same.symm).symm
    · rfl
  · intro used unused isUsed isBlank notUsed
    have unusedBlank : key unused = blank :=
      cache.fresh unused fun isUsed => notUsed (.inl isUsed)
    rcases isUsed with isUsed | rfl
    · exact cache.front used unused isUsed isBlank fun isUsed => notUsed (.inl isUsed)
    · refine ListOrder.before_of_find found (cache.complete unused) ?_ ?_
      · simp [unusedBlank, ← isBlank, slotKey]
      · rintro rfl
        exact notUsed (.inr rfl)

theorem miss [DecidableEq Slot] [DecidableEq Key]
    (slot : Slot) {wanted : Key}
    (absent : order.find? (fun index => decide (key index = wanted)) = none) :
    KeyedCache order (update key slot wanted) (fun index => Used index ∨ index = slot) blank := by
  have noKey : ∀ other, key other ≠ wanted := by
    intro other same
    have := List.find?_eq_none.mp absent other (cache.complete other)
    simp [same] at this
  refine ⟨cache.nodup, cache.complete, ?_, ?_, ?_⟩
  · intro other notUsed
    have different : other ≠ slot := fun same => notUsed (.inr same)
    rw [update_of_ne different]
    exact cache.fresh other fun used => notUsed (.inl used)
  · intro left right leftUsed rightUsed same
    by_cases leftSlot : left = slot <;> by_cases rightSlot : right = slot
    · exact leftSlot.trans rightSlot.symm
    · rw [leftSlot, update_self, update_of_ne rightSlot] at same
      exact absurd same.symm (noKey right)
    · rw [rightSlot, update_self, update_of_ne leftSlot] at same
      exact absurd same (noKey left)
    · rw [update_of_ne leftSlot, update_of_ne rightSlot] at same
      exact cache.unique left right (leftUsed.resolve_right leftSlot)
        (rightUsed.resolve_right rightSlot) same
  · intro used unused isUsed isBlank notUsed
    have unusedBlank := cache.fresh unused fun isUsed => notUsed (.inl isUsed)
    by_cases same : used = slot
    · -- With an unused slot around, the blank key is not missing.
      rw [same, update_self] at isBlank
      exact absurd (unusedBlank.trans isBlank.symm) (noKey unused)
    · rw [update_of_ne same] at isBlank
      exact cache.front used unused (isUsed.resolve_right same) isBlank
        fun isUsed => notUsed (.inl isUsed)

theorem moveFront [DecidableEq Slot] {slot : Slot} (slotUsed : Used slot) :
    KeyedCache (slot :: order.erase slot) key Used blank := by
  refine ⟨ListOrder.nodup_moved slot cache.nodup,
    fun other => ListOrder.mem_moved slot (cache.complete other),
    cache.fresh, cache.unique, ?_⟩
  intro used unused isUsed isBlank notUsed
  have unusedDifferent : unused ≠ slot := fun same => notUsed (same ▸ slotUsed)
  by_cases same : used = slot
  · rw [same]
    exact ListOrder.before_moved (cache.complete unused) unusedDifferent
  · exact ListOrder.before_of_before_moved same unusedDifferent
      (cache.front used unused isUsed isBlank notUsed)

theorem congr {otherKey : Slot → Key}
    {OtherUsed : Slot → Prop} (sameKey : ∀ slot, otherKey slot = key slot)
    (sameUse : ∀ slot, OtherUsed slot ↔ Used slot) : KeyedCache order otherKey OtherUsed blank := by
  have keys : otherKey = key := funext sameKey
  have uses : OtherUsed = Used := funext fun slot => propext (sameUse slot)
  rw [keys, uses]
  exact cache

end KeyedCache
end Tnix
