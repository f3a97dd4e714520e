import Mathlib.Data.List.Basic

/-! # Terminated sequences

An array whose entries count up to the first one that ends it. -/

namespace Tnix.Terminated

universe u
variable {α : Type u} {stop : α → Prop} [DecidablePred stop]

/-- The entries among the first `limit` up to one that ends the sequence. -/
def read (stop : α → Prop) [DecidablePred stop] : Nat → (Nat → α) → List α
  | 0, _ => []
  | limit + 1, entry =>
    if stop (entry 0) then [] else entry 0 :: read stop limit fun k => entry (k + 1)

theorem read_eq_iff {limit : Nat} {entry : Nat → α} {list : List α} :
    read stop limit entry = list ↔
      list.length ≤ limit ∧ (∀ k, list[k]? = if k < list.length then some (entry k) else none) ∧
        (∀ k < list.length, ¬ stop (entry k)) ∧
        (list.length < limit → stop (entry list.length)) := by
  induction limit generalizing entry list with
  | zero =>
    cases list with
    | nil => simp [read]
    | cons head tail => simp [read]
  | succ limit induction =>
    rw [read]
    split
    case isTrue stops =>
      cases list with
      | nil => simpa using stops
      | cons head tail =>
        constructor
        · intro same
          cases same
        · exact fun formed => absurd stops (formed.2.2.1 0 (Nat.succ_pos _))
    case isFalse goes =>
      cases list with
      | nil =>
        constructor
        · intro same
          cases same
        · exact fun formed => absurd (formed.2.2.2 (Nat.succ_pos _)) goes
      | cons head tail =>
        rw [List.cons.injEq, induction]
        constructor
        · rintro ⟨rfl, few, entries, goOn, ends⟩
          refine ⟨Nat.succ_le_succ few, ?_, ?_, fun short => ends (Nat.lt_of_succ_lt_succ short)⟩
          · intro k
            cases k with
            | zero => simp
            | succ k => simpa using entries k
          · intro k inList
            cases k with
            | zero => exact goes
            | succ k => exact goOn k (Nat.lt_of_succ_lt_succ inList)
        · rintro ⟨few, entries, goOn, ends⟩
          refine ⟨?_, Nat.le_of_succ_le_succ few, ?_, ?_, ?_⟩
          · simpa using (entries 0).symm
          · intro k
            simpa using entries (k + 1)
          · exact fun k inList => goOn (k + 1) (Nat.succ_lt_succ inList)
          · exact fun short => ends (Nat.succ_lt_succ short)

section
variable {limit : Nat} {entry : Nat → α}

theorem length_read_le : (read stop limit entry).length ≤ limit :=
  (read_eq_iff.mp rfl).1

theorem not_stop_of_lt {k : Nat} (inList : k < (read stop limit entry).length) :
    ¬ stop (entry k) :=
  (read_eq_iff.mp rfl).2.2.1 k inList

theorem stop_of_length (short : (read stop limit entry).length < limit) :
    stop (entry (read stop limit entry).length) :=
  (read_eq_iff.mp rfl).2.2.2 short

theorem getElem?_read {k : Nat} (inList : k < (read stop limit entry).length) :
    (read stop limit entry)[k]? = some (entry k) := by
  rw [(read_eq_iff.mp rfl).2.1 k, if_pos inList]

theorem length_le_of_stop {k : Nat} (stops : stop (entry k)) :
    (read stop limit entry).length ≤ k :=
  Nat.not_lt.mp fun inList => not_stop_of_lt inList stops

theorem read_concat {longer : Nat → α} (short : (read stop limit entry).length < limit)
    (before : ∀ k < (read stop limit entry).length, longer k = entry k)
    (goesOn : ¬ stop (longer (read stop limit entry).length))
    (ends : stop (longer ((read stop limit entry).length + 1))) :
    read stop limit longer = read stop limit entry ++ [longer (read stop limit entry).length] := by
  rw [read_eq_iff, List.length_append, List.length_singleton]
  refine ⟨short, fun k => ?_, fun k inside => ?_, fun _ => ends⟩
  · rcases Nat.lt_trichotomy k (read stop limit entry).length with inList | rfl | after
    · rw [List.getElem?_append_left inList, getElem?_read inList, if_pos (by omega),
        before k inList]
    · rw [List.getElem?_concat_length, if_pos (Nat.lt_succ_self _)]
    · rw [if_neg (by omega), List.getElem?_eq_none]
      rw [List.length_append, List.length_singleton]
      omega
  · by_cases inList : k < (read stop limit entry).length
    · rw [before k inList]
      exact not_stop_of_lt inList
    · obtain rfl : k = (read stop limit entry).length := by omega
      exact goesOn

theorem read_eraseIdx {moved : Nat → α} {i : Nat} (inList : i < (read stop limit entry).length)
    (before : ∀ k < i, moved k = entry k)
    (after : ∀ k, i ≤ k → k + 1 < (read stop limit entry).length → moved k = entry (k + 1))
    (ends : stop (moved ((read stop limit entry).length - 1))) :
    read stop limit moved = (read stop limit entry).eraseIdx i := by
  have few := @length_read_le _ stop _ limit entry
  have length : ((read stop limit entry).eraseIdx i).length =
      (read stop limit entry).length - 1 := List.length_eraseIdx_of_lt inList
  have value : ∀ k < (read stop limit entry).length - 1,
      moved k = entry (if k < i then k else k + 1) := by
    intro k inMoved
    split
    case isTrue front => exact before k front
    case isFalse back => exact after k (Nat.not_lt.mp back) (by omega)
  rw [read_eq_iff, length]
  refine ⟨by omega, ?_, ?_, fun _ => ends⟩
  · intro k
    rw [List.getElem?_eraseIdx]
    by_cases inMoved : k < (read stop limit entry).length - 1
    · rw [if_pos inMoved, value k inMoved]
      split
      case isTrue front => rw [getElem?_read (by omega)]
      case isFalse back => rw [getElem?_read (by omega)]
    · rw [if_neg inMoved, if_neg (by omega)]
      exact List.getElem?_eq_none (by omega)
  · intro k inMoved
    rw [value k inMoved]
    have inEntries : (if k < i then k else k + 1) < (read stop limit entry).length := by
      split <;> omega
    exact not_stop_of_lt inEntries

end
end Tnix.Terminated
