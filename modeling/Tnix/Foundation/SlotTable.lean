import Mathlib.Data.Fintype.BigOperators

/-! # A table of counted slots

Slots that stand for keys, each with a count. A key has as many references as the counts
of its slots say. -/

namespace Tnix.SlotTable

universe u v
variable {ι : Type u} {κ : Type v} [Fintype ι] [DecidableEq ι] [DecidableEq κ]
  {key key' : ι → Option κ} {count count' : ι → Nat} {slot : ι} {target : κ}

def refs (key : ι → Option κ) (count : ι → Nat) (target : κ) : Nat :=
  ∑ slot, if key slot = some target then count slot else 0

structure Changed (key key' : ι → Option κ) (count count' : ι → Nat) (slot : ι) : Prop where
  key : ∀ other, other ≠ slot → key' other = key other
  count : ∀ other, other ≠ slot → count' other = count other

variable (changed : Changed key key' count count' slot)
include changed

theorem refs_changed (target : κ) :
    refs key' count' target + (if key slot = some target then count slot else 0) =
      refs key count target + (if key' slot = some target then count' slot else 0) := by
  have inTable := Finset.mem_univ slot
  rw [refs, refs, ← Finset.add_sum_erase _ _ inTable, ← Finset.add_sum_erase _ _ inTable]
  have same : ∑ other ∈ Finset.univ.erase slot,
      (if key' other = some target then count' other else 0) =
      ∑ other ∈ Finset.univ.erase slot, if key other = some target then count other else 0 := by
    refine Finset.sum_congr rfl fun other isOther => ?_
    have different := Finset.ne_of_mem_erase isOther
    rw [changed.key other different, changed.count other different]
  rw [same]
  omega

theorem refs_retain (isKey : key slot = some target) (sameKey : key' slot = some target)
    (more : count' slot = count slot + 1) (other : κ) :
    refs key' count' other = refs key count other + if other = target then 1 else 0 := by
  have sum := refs_changed changed other
  rw [isKey, sameKey, more] at sum
  by_cases same : other = target
  · subst same
    simp only [if_true] at sum ⊢
    omega
  · have different : some target ≠ some other := fun equal => same (Option.some.inj equal).symm
    rw [if_neg different, if_neg different] at sum
    rwa [if_neg same]

theorem refs_take (unused : count slot = 0)
    (isKey : key' slot = some target) (one : count' slot = 1) (other : κ) :
    refs key' count' other = refs key count other + if other = target then 1 else 0 := by
  have sum := refs_changed changed other
  rw [unused, ite_self, Nat.add_zero, isKey, one] at sum
  rw [sum]
  simp only [Option.some.injEq, eq_comm]

theorem refs_release (isKey : key slot = some target) (sameKey : key' slot = some target)
    (less : count' slot + 1 = count slot) (other : κ) :
    refs key count other = refs key' count' other + if other = target then 1 else 0 := by
  refine refs_retain ⟨fun i different => ?_, fun i different => ?_⟩ sameKey isKey less.symm other
  · exact (changed.key i different).symm
  · exact (changed.count i different).symm

end Tnix.SlotTable
