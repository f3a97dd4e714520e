import Mathlib.Data.BitVec

/-! # Fields of a bit vector

Reading and writing a run of bits at a position. A block of memory in little-endian
order is one bit vector; its bytes and words are fields of it. -/

namespace Tnix.BitField

open BitVec
variable {size : Nat}

def get (bits : BitVec size) (start width : Nat) : BitVec width :=
  bits.extractLsb' start width

def put {width : Nat} (bits : BitVec size) (start : Nat) (value : BitVec width) : BitVec size :=
  (bits &&& ~~~((BitVec.allOnes width).setWidth size <<< start)) |||
    (value.setWidth size <<< start)

variable (bits : BitVec size)

theorem getLsbD_get (start width index : Nat) : (get bits start width).getLsbD index =
      (decide (index < width) && bits.getLsbD (start + index)) :=
  getLsbD_extractLsb' start width bits index

variable {width start place : Nat}

theorem getLsbD_put (start : Nat) (value : BitVec width) (index : Nat) :
    (put bits start value).getLsbD index =
      if start ≤ index ∧ index < start + width ∧ index < size then value.getLsbD (index - start)
      else bits.getLsbD index := by
  by_cases inSize : index < size
  · by_cases after : start ≤ index
    · by_cases before : index < start + width
      · have inWidth : index - start < width := by omega
        have notUnder : ¬ index < start := by omega
        simp [put, inSize, inWidth, notUnder, after, before]
      · have notWidth : ¬ index - start < width := by omega
        have past : value.getLsbD (index - start) = false :=
          getLsbD_of_ge value _ (by omega)
        simp [put, inSize, notWidth, before, past]
    · have under : index < start := by omega
      simp [put, inSize, after, under]
  · have past : ∀ other : BitVec size, other.getLsbD index = false :=
      fun other => getLsbD_of_ge other _ (by omega)
    simp [inSize, past]

theorem get_put (value : BitVec width) (fits : start + width ≤ size) :
    get (put bits start value) start width = value := by
  apply eq_of_getLsbD_eq
  intro index inWidth
  have here : start ≤ start + index ∧ start + index < start + width ∧
      start + index < size := by omega
  rw [getLsbD_get, getLsbD_put, if_pos here]
  simp [inWidth]

theorem get_put_of_disjoint {other otherWidth : Nat} (value : BitVec width)
    (disjoint : start + width ≤ other ∨ other + otherWidth ≤ start) :
    get (put bits start value) other otherWidth = get bits other otherWidth := by
  apply eq_of_getLsbD_eq
  intro index inWidth
  have elsewhere : ¬ (start ≤ other + index ∧ other + index < start + width ∧
      other + index < size) := by omega
  rw [getLsbD_get, getLsbD_put, if_neg elsewhere, getLsbD_get]

@[simp] theorem get_zero (start width : Nat) : get (0#(size)) start width = 0#(width) := by
  apply eq_of_getLsbD_eq
  intro index _
  simp [getLsbD_get]

/-! ## Single bits -/

theorem getLsbD_bit (width place index : Nat) :
    (1#(width) <<< place).getLsbD index = (decide (index < width) && decide (index = place)) := by
  rw [getLsbD_shiftLeft, getLsbD_one]
  by_cases same : index = place
  · by_cases inside : place < width
    · simp [same, inside, Nat.zero_lt_of_lt inside]
    · simp [same, inside]
  · by_cases under : index < place
    · simp [under, same]
    · have apart : index - place ≠ 0 := by omega
      simp [same, apart]

theorem and_bit_eq_zero (word : BitVec width) (inWidth : place < width) :
    word &&& (1#(width) <<< place) = 0#(width) ↔ word.getLsbD place = false := by
  constructor
  · intro isZero
    have atPlace := congrArg (fun bits => bits.getLsbD place) isZero
    simpa [getLsbD_bit, inWidth] using atPlace
  · intro isClear
    apply eq_of_getLsbD_eq
    intro index _
    rw [getLsbD_and, getLsbD_bit, getLsbD_zero]
    by_cases same : index = place
    · rw [same, isClear, Bool.false_and]
    · simp [same]

theorem getLsbD_put_set (inWidth : place < width) (fits : start + width ≤ size) (index : Nat) :
    (put bits start (get bits start width ||| (1#(width) <<< place))).getLsbD index =
      if index = start + place then true else bits.getLsbD index := by
  rw [getLsbD_put]
  split
  case isTrue here =>
    have back : start + (index - start) = index := by omega
    have inside : index - start < width := by omega
    rw [getLsbD_or, getLsbD_bit, getLsbD_get, back]
    by_cases same : index = start + place
    · simp [same, inWidth]
    · have apart : index - start ≠ place := by omega
      simp [same, apart, inside]
  case isFalse there =>
    rw [if_neg (by omega)]

theorem getLsbD_put_clear (inWidth : place < width) (fits : start + width ≤ size) (index : Nat) :
    (put bits start (get bits start width &&& ~~~(1#(width) <<< place))).getLsbD index =
      if index = start + place then false else bits.getLsbD index := by
  rw [getLsbD_put]
  split
  case isTrue here =>
    have back : start + (index - start) = index := by omega
    have inside : index - start < width := by omega
    rw [getLsbD_and, getLsbD_not, getLsbD_bit, getLsbD_get, back]
    by_cases same : index = start + place
    · simp [same, inWidth]
    · have apart : index - start ≠ place := by omega
      simp [same, apart, inside]
  case isFalse there =>
    rw [if_neg (by omega)]

end Tnix.BitField
