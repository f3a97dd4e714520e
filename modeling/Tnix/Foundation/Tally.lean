import Mathlib.Data.Fintype.Card

/-! # Counting who points where

A family of pointers, one for each owner, and the number of owners that point
to a given target. Reference counts are such tallies. -/

namespace Tnix

open Finset
universe u v
variable {Owner : Type u} {Target : Type v} [Fintype Owner] [DecidableEq Target]

def tally (pointer : Owner → Option Target) (target : Target) : Nat :=
  (Finset.univ.filter fun owner => pointer owner = some target).card

theorem tally_pos {pointer : Owner → Option Target} {target : Target} {owner : Owner}
    (points : pointer owner = some target) : 0 < tally pointer target :=
  card_pos.mpr ⟨owner, by simpa using points⟩

@[simp] theorem tally_none (target : Target) :
    tally (fun _ : Owner => (none : Option Target)) target = 0 := by
  simp [tally]

variable (pointer : Owner → Option Target)

theorem tally_update [DecidableEq Owner] (owner : Owner) (moved : Option Target) (target : Target) :
    tally (Function.update pointer owner moved) target +
        (if pointer owner = some target then 1 else 0) =
      tally pointer target + (if moved = some target then 1 else 0) := by
  have split (family : Owner → Option Target) :
      tally family target = (if family owner = some target then 1 else 0) +
        ((Finset.univ.erase owner).filter fun other =>
          family other = some target).card := by
    rw [tally, ← insert_erase (mem_univ owner), filter_insert]
    split
    · rw [card_insert_of_notMem (by simp), erase_insert (by simp)]
      omega
    · rw [erase_insert (by simp)]
      omega
  have others : ((Finset.univ.erase owner).filter fun other =>
        Function.update pointer owner moved other = some target) =
      ((Finset.univ.erase owner).filter fun other => pointer other = some target) := by
    apply filter_congr
    intro other member
    rw [Function.update_of_ne (ne_of_mem_erase member)]
  rw [split (Function.update pointer owner moved), split pointer, others, Function.update_self]
  omega

theorem tally_le_card (target : Target) : tally pointer target ≤ Fintype.card Owner :=
  card_le_univ _

end Tnix
