import Mathlib.Data.List.Range
import Mathlib.Data.UInt

/-! # Ring buffers

A ring of `size` cells holds a window of consecutive positions; position `p`
lives in cell `p % size`. Positions are unbounded: a program keeps them modulo
a multiple of `size`. -/

namespace Tnix.Ring

open Function
universe u
variable {α : Type u}

def window (size : Nat) (cells : Nat → α) (start count : Nat) : List α :=
  (List.range count).map fun index => cells ((start + index) % size)

def slice (cells : Nat → α) (start count : Nat) : List α :=
  (List.range count).map fun index => cells (start + index)

def store (cells : Nat → α) (start count : Nat) (values : Nat → α) : Nat → α :=
  fun cell => if start ≤ cell ∧ cell < start + count then values (cell - start)
    else cells cell

@[simp] theorem window_zero (size : Nat) (cells : Nat → α) (start : Nat) :
    window size cells start 0 = [] := rfl

@[simp] theorem length_window (size : Nat) (cells : Nat → α) (start count : Nat) :
    (window size cells start count).length = count := by
  simp [window]

section
variable (cells : Nat → α)

@[simp] theorem length_slice (start count : Nat) : (slice cells start count).length = count := by
  simp [slice]

theorem slice_add (start first second : Nat) : slice cells start (first + second) =
      slice cells start first ++ slice cells (start + first) second := by
  simp [slice, List.range_add, comp_def, Nat.add_assoc]

theorem slice_eq_take (start count total : Nat) (within : count ≤ total) :
    slice cells start count = (slice cells start total).take count := by
  simp [slice, ← List.map_take, List.take_range, Nat.min_eq_left within]

end

theorem window_add (size : Nat) (cells : Nat → α) (start first second : Nat) :
    window size cells start (first + second) =
      window size cells start first ++ window size cells (start + first) second := by
  simp [window, List.range_add, comp_def, Nat.add_assoc]

variable {size start count : Nat}

section
variable (cells : Nat → α)

theorem window_congr_start {other : Nat} (count : Nat) (same : start % size = other % size) :
    window size cells start count = window size cells other count := by
  simp only [window]
  apply List.map_congr_left
  intro index _
  rw [Nat.add_mod, same, ← Nat.add_mod]

theorem window_eq_slice (inside : start % size + count ≤ size) :
    window size cells start count = slice cells (start % size) count := by
  simp only [window, slice]
  apply List.map_congr_left
  intro index member
  have bound := List.mem_range.mp member
  have small : start % size + index < size := by omega
  rw [Nat.add_mod, Nat.mod_eq_of_lt (show index < size by omega), Nat.mod_eq_of_lt small]

theorem window_store {added : Nat} (cells values : Nat → α)
    (inside : (start + count) % size + added ≤ size) (fits : count + added ≤ size) :
    window size (store cells ((start + count) % size) added values) start (count + added) =
      window size cells start count ++ slice values 0 added := by
  rw [window_add]
  congr 1
  · simp only [window]
    apply List.map_congr_left
    intro index member
    have bound := List.mem_range.mp member
    -- The old positions are fewer than `size` behind the written ones.
    rw [store, if_neg]
    rintro ⟨above, below⟩
    have offset : (start + index) % size - (start + count) % size < added := by omega
    have first := Nat.div_add_mod (start + index) size
    have second := Nat.div_add_mod (start + count) size
    have order : (start + index) / size ≤ (start + count) / size :=
      Nat.div_le_div_right (by omega)
    rcases Nat.lt_or_eq_of_le order with less | equal
    · have step : size * ((start + index) / size) + size ≤
          size * ((start + count) / size) := by
        have := Nat.mul_le_mul_left size less
        rwa [Nat.mul_succ] at this
      omega
    · rw [equal] at first
      omega
  · rw [window_eq_slice _ inside]
    simp only [slice]
    apply List.map_congr_left
    intro index member
    have bound := List.mem_range.mp member
    rw [store, if_pos (by omega)]
    congr 1
    omega

/-! ## Rings between two 16-bit indices -/

theorem window_push (value : α) (fits : count < size) :
    window size (update cells ((start + count) % size) value) start (count + 1) =
      window size cells start count ++ [value] := by
  have inside : (start + count) % size + 1 ≤ size :=
    Nat.mod_lt _ (Nat.lt_of_le_of_lt (Nat.zero_le _) fits)
  have stored : update cells ((start + count) % size) value =
      store cells ((start + count) % size) 1 fun _ => value := by
    funext cell
    rw [update_apply, store]
    congr 1
    exact propext ⟨by omega, by omega⟩
  rw [stored, window_store cells _ inside fits]
  rfl

theorem window_store_behind (value : α) (fits : count < size) :
    window size (update cells ((start + count) % size) value) start count =
      window size cells start count := by
  have pushed := @window_push _ size start _ (update cells ((start + count) % size) value) value fits
  rw [update_idem, window_push cells value fits] at pushed
  exact (List.append_cancel_right pushed).symm

end

theorem window_pop (size : Nat) (cells : Nat → α) (start count : Nat) :
    window size cells start (count + 1) =
      cells (start % size) :: window size cells (start + 1) count := by
  rw [Nat.add_comm count 1, window_add]
  rfl

def queue (size : Nat) (cells : Nat → α) (first last : UInt16) : List α :=
  window size cells first.toNat (last - first).toNat

theorem length_queue (size : Nat) (cells : Nat → α) (first last : UInt16) :
    (queue size cells first last).length = (last - first).toNat := length_window _ _ _ _

theorem queue_self (size : Nat) (cells : Nat → α) (index : UInt16) :
    queue size cells index index = [] := by
  rw [queue, UInt16.sub_self]
  rfl

section
variable {size : Nat} {cells : Nat → α} {first last : UInt16} (divides : size ∣ 2 ^ 16)
include divides

theorem queue_place : last.toNat % size = (first.toNat + (last - first).toNat) % size := by
  have sum : (first.toNat + (last - first).toNat) % 2 ^ 16 = last.toNat := by
    have := first.toNat_lt
    have := last.toNat_lt
    rw [UInt16.toNat_sub]
    omega
  rw [← sum, Nat.mod_mod_of_dvd _ divides]

theorem queue_push (small : size < 2 ^ 16) (fits : (queue size cells first last).length < size)
    (value : α) :
    queue size (update cells (last.toNat % size) value) first (last + 1) =
      queue size cells first last ++ [value] := by
  rw [length_queue] at fits
  have one : (1 : UInt16).toNat = 1 := rfl
  have count : (last + 1 - first).toNat = (last - first).toNat + 1 := by
    rw [UInt16.toNat_sub, UInt16.toNat_add, one]
    rw [UInt16.toNat_sub] at fits ⊢
    omega
  rw [queue, count, queue_place divides, window_push cells value fits]
  rfl

theorem queue_store (fits : (queue size cells first last).length < size) (value : α) :
    queue size (update cells (last.toNat % size) value) first last =
      queue size cells first last := by
  rw [length_queue] at fits
  rw [queue, queue_place divides, window_store_behind cells value fits]
  rfl

theorem queue_pop (nonempty : first ≠ last) :
    queue size cells first last =
      cells (first.toNat % size) :: queue size cells (first + 1) last := by
  have one : (1 : UInt16).toNat = 1 := rfl
  have different : first.toNat ≠ last.toNat := fun same => nonempty (UInt16.toNat_inj.mp same)
  have count : (last - first).toNat = (last - (first + 1)).toNat + 1 := by
    have := first.toNat_lt
    have := last.toNat_lt
    rw [UInt16.toNat_sub, UInt16.toNat_sub, UInt16.toNat_add, one]
    omega
  rw [queue, count, window_pop, queue]
  congr 1
  apply window_congr_start
  rw [UInt16.toNat_add, one, Nat.mod_mod_of_dvd _ divides]

end
end Tnix.Ring
