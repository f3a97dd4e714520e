import Mathlib.Logic.Function.Basic

/-! # Interleavings

A sequence that is put together from several ones, each of them in its order. -/

namespace Tnix

universe u v
variable {Part : Type u} {α : Type v} [DecidableEq Part]

/-- `whole` has the elements of all the parts, those of each part in its order. -/
inductive Interleaves : List α → (Part → List α) → Prop
  | nil : Interleaves [] fun _ => []
  | snoc {whole : List α} {parts : Part → List α} (part : Part) (value : α) :
      Interleaves whole parts →
      Interleaves (whole ++ [value]) (Function.update parts part (parts part ++ [value]))

namespace Interleaves

theorem mem {whole : List α} {parts : Part → List α} (interleaves : Interleaves whole parts)
    {part : Part} {value : α} (member : value ∈ parts part) : value ∈ whole := by
  induction interleaves with
  | nil => cases member
  | snoc other last _ induction =>
    by_cases same : part = other
    · subst same
      rw [Function.update_self] at member
      rcases List.mem_append.mp member with earlier | atEnd
      · exact List.mem_append_left _ (induction earlier)
      · exact List.mem_append_right _ atEnd
    · rw [Function.update_of_ne same] at member
      exact List.mem_append_left _ (induction member)

end Interleaves
end Tnix
