import Mathlib.Algebra.Group.Nat.Defs
import Mathlib.Tactic.Common

/-! # `string.c`: `memcpy` and `strcpy` -/

namespace Tnix.Util

open Function

/-- The bytes at the addresses of a 64-bit machine. -/
abbrev Bytes := BitVec 64 → UInt8

variable {memory : Bytes} {dst src : BitVec 64} {n : Nat}

/-- `while (n-- > 0) *--d = *--s;` -/
def copyDown : Nat → BitVec 64 → BitVec 64 → Bytes → Bytes
  | 0, _, _, memory => memory
  | n + 1, d, s, memory => copyDown n (d - 1) (s - 1) (update memory (d - 1) (memory (s - 1)))

/-- `while (n-- > 0) *d++ = *s++;` -/
def copyUp : Nat → BitVec 64 → BitVec 64 → Bytes → Bytes
  | 0, _, _, memory => memory
  | n + 1, d, s, memory => copyUp n (d + 1) (s + 1) (update memory d (memory s))

def memcpy (dst src : BitVec 64) (n : UInt32) (memory : Bytes) : Bytes :=
  if n = 0 then memory
  else
    let size := BitVec.ofNat 64 n.toNat
    if src < dst ∧ src + size > dst then copyDown n.toNat (dst + size) (src + size) memory
    else copyUp n.toNat dst src memory

/-- The address is one of the `n` from `start` on. -/
def Within (start : BitVec 64) (n : Nat) (address : BitVec 64) : Prop :=
  start.toNat ≤ address.toNat ∧ address.toNat < start.toNat + n

instance (start : BitVec 64) (n : Nat) (address : BitVec 64) :
    Decidable (Within start n address) :=
  inferInstanceAs (Decidable (_ ∧ _))

/-- The memory with `n` bytes of another one, which are at `src` there, put at `dst`. -/
def moved (dst src : BitVec 64) (n : Nat) (memory : Bytes) (address : BitVec 64) : UInt8 :=
  if Within dst n address then memory (src + (address - dst)) else memory address

theorem moved_zero : moved dst src 0 memory = memory := by
  funext address
  exact if_neg fun within => absurd within.2 (Nat.not_lt.mpr within.1)

theorem toNat_add_ofNat (start : BitVec 64) (bound : start.toNat + n < 2 ^ 64) :
    (start + BitVec.ofNat 64 n).toNat = start.toNat + n := by
  bv_omega

theorem within_succ (bound : dst.toNat + n < 2 ^ 64) {address : BitVec 64}
    (other : address ≠ dst + BitVec.ofNat 64 n) :
    Within dst (n + 1) address ↔ Within dst n address := by
  have different : address.toNat ≠ dst.toNat + n := fun equal =>
    other (BitVec.eq_of_toNat_eq (equal.trans (toNat_add_ofNat dst bound).symm))
  simp only [Within]
  omega

theorem moved_succ (bound : dst.toNat + n < 2 ^ 64) :
    moved dst src (n + 1) memory = update (moved dst src n memory) (dst + BitVec.ofNat 64 n)
        (memory (src + BitVec.ofNat 64 n)) := by
  have last := toNat_add_ofNat dst bound
  funext address
  by_cases same : address = dst + BitVec.ofNat 64 n
  · rw [same, update_self, moved, if_pos (by simp only [Within]; omega),
      BitVec.add_comm dst, BitVec.add_sub_cancel]
  · rw [update_of_ne same, moved, moved, if_congr (within_succ bound same) rfl rfl]

/-! ## The two loops -/

theorem copyUp_succ : copyUp (n + 1) dst src memory =
    update (copyUp n dst src memory) (dst + BitVec.ofNat 64 n)
      (copyUp n dst src memory (src + BitVec.ofNat 64 n)) := by
  induction n generalizing dst src memory with
  | zero => simp [copyUp]
  | succ n induction =>
    have next (start : BitVec 64) : start + 1 + BitVec.ofNat 64 n =
        start + BitVec.ofNat 64 (n + 1) := by bv_omega
    rw [copyUp, induction, next, next]
    rfl

/-- Upwards, a byte that is written over has been read before. -/
theorem copyUp_eq (dstEnd : dst.toNat + n ≤ 2 ^ 64) (srcEnd : src.toNat + n ≤ 2 ^ 64)
    (apart : dst.toNat ≤ src.toNat ∨ src.toNat + n ≤ dst.toNat) :
    copyUp n dst src memory = moved dst src n memory := by
  induction n with
  | zero => exact moved_zero.symm
  | succ n induction =>
    have read := toNat_add_ofNat (n := n) src (by omega)
    rw [copyUp_succ, induction (by omega) (by omega) (by omega), moved_succ (by omega)]
    congr 1
    exact if_neg fun within => by simp only [Within] at within; omega

theorem copyDown_eq (dstEnd : dst.toNat + n ≤ 2 ^ 64) (srcEnd : src.toNat + n ≤ 2 ^ 64)
    (below : src.toNat < dst.toNat) :
    copyDown n (dst + BitVec.ofNat 64 n) (src + BitVec.ofNat 64 n) memory =
      moved dst src n memory := by
  induction n generalizing memory with
  | zero => exact moved_zero.symm
  | succ n induction =>
    have back (start : BitVec 64) : start + BitVec.ofNat 64 (n + 1) - 1 =
        start + BitVec.ofNat 64 n := by bv_omega
    have written := toNat_add_ofNat (n := n) dst (by omega)
    rw [copyDown, back, back, induction (by omega) (by omega), moved_succ (by omega)]
    funext address
    -- the byte written first is neither read nor written afterwards
    by_cases same : address = dst + BitVec.ofNat 64 n
    · rw [same, update_self, moved, if_neg (by simp only [Within]; omega), update_self]
    · rw [update_of_ne same, moved, moved, update_of_ne same]
      refine ite_congr rfl (fun within => update_of_ne (fun equal => ?_) _ _) fun _ => rfl
      have := congrArg BitVec.toNat equal
      simp only [Within] at within
      bv_omega

theorem memcpy_eq {n : UInt32} (dstEnd : dst.toNat + n.toNat ≤ 2 ^ 64)
    (srcEnd : src.toNat + n.toNat ≤ 2 ^ 64) :
    memcpy dst src n memory = moved dst src n.toNat memory := by
  rw [memcpy]
  split
  case isTrue empty => rw [empty, UInt32.toNat_zero, moved_zero]
  case isFalse =>
    dsimp only
    split
    case isTrue overlap => exact copyDown_eq dstEnd srcEnd overlap.1
    case isFalse disjoint =>
      refine copyUp_eq dstEnd srcEnd ?_
      by_contra both
      refine disjoint ⟨by simp only [BitVec.lt_def]; omega, ?_⟩
      -- `dst` is behind `src`, so the end of `src` does not wrap
      have := toNat_add_ofNat (n := n.toNat) src (by omega)
      simp only [gt_iff_lt, BitVec.lt_def]
      omega

theorem memcpy_moves (memory : Bytes) (dst src : BitVec 64) (n : UInt32)
    (dstEnd : dst.toNat + n.toNat ≤ 2 ^ 64) (srcEnd : src.toNat + n.toNat ≤ 2 ^ 64) :
    (∀ i < n.toNat, memcpy dst src n memory (dst + BitVec.ofNat 64 i) =
      memory (src + BitVec.ofNat 64 i)) ∧
    ∀ address : BitVec 64,
      ¬(dst.toNat ≤ address.toNat ∧ address.toNat < dst.toNat + n.toNat) →
      memcpy dst src n memory address = memory address := by
  rw [memcpy_eq dstEnd srcEnd]
  refine ⟨fun i inside => ?_, fun address outside => if_neg outside⟩
  have place := toNat_add_ofNat (n := i) dst (by omega)
  rw [moved, if_pos (by simp only [Within]; omega), BitVec.add_comm dst, BitVec.add_sub_cancel]

/-- Three bytes up by one: the ranges overlap. -/
theorem memcpy_moves_three :
    memcpy 0x1001#64 0x1000#64 3 (fun address => UInt8.ofNat address.toNat) 0x1003#64 = 2 ∧
    (∀ i < 3, memcpy 0x1001#64 0x1000#64 3 (fun address => UInt8.ofNat address.toNat)
      (0x1001#64 + BitVec.ofNat 64 i) = UInt8.ofNat (0x1000#64 + BitVec.ofNat 64 i).toNat) :=
  ⟨by decide, (memcpy_moves _ 0x1001#64 0x1000#64 3 (by decide) (by decide)).1⟩

/-! ## `strcpy` -/

/-- The stores of `strcpy` of a text from an index on, the NUL included. -/
def strcpyFrom (dest : Nat) : List UInt8 → List (Nat × UInt8)
  | [] => [(dest, 0)]
  | byte :: rest => (dest, byte) :: strcpyFrom (dest + 1) rest

def storeAll (stores : List (Nat × UInt8)) (memory : Nat → UInt8) : Nat → UInt8 :=
  stores.foldl (fun memory store => update memory store.1 store.2) memory

variable {dest : Nat} {text : List UInt8}

theorem strcpyFrom_below {limit : Nat} :
    (∀ store ∈ strcpyFrom dest text, store.1 < limit) ↔ dest + text.length < limit := by
  induction text generalizing dest with
  | nil => simp [strcpyFrom]
  | cons byte rest induction =>
    rw [strcpyFrom, List.forall_mem_cons, induction, List.length_cons]
    omega

theorem storeAll_strcpyFrom (memory : Nat → UInt8) (i : Nat) :
    storeAll (strcpyFrom dest text) memory i =
      if dest ≤ i ∧ i ≤ dest + text.length then text.getD (i - dest) 0 else memory i := by
  induction text generalizing dest memory with
  | nil =>
    by_cases same : i = dest
    · simp [storeAll, strcpyFrom, same]
    · rw [if_neg (by rw [List.length_nil]; omega)]
      exact update_of_ne same _ _
  | cons byte rest induction =>
    rw [List.length_cons]
    refine (induction (update memory dest byte)).trans ?_
    by_cases same : i = dest
    · rw [same, update_self, if_neg (by omega), if_pos (by omega), Nat.sub_self]
      rfl
    · rw [update_of_ne same]
      refine if_ctx_congr (by omega) (fun inside => ?_) fun _ => rfl
      rw [show i - dest = i - (dest + 1) + 1 by omega, List.getD_cons_succ]

end Tnix.Util
