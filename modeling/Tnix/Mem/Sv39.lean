import Tnix.Mem.Translation

/-! # Sv39

The walk of the hardware over a page table. A leaf of a level above the last maps a larger
page, whose physical address must be a multiple of its size. -/

namespace Tnix.Vm

open Mem
variable {Task : Type} {pages : Pages Task Words} {root : Nat} {va pa x : U64} {attr : BitVec 16}
  {gra : Granularity}

def span (level : Nat) : Nat := PGSIZE * 512 ^ level

/-- The physical address and the flags that a leaf of a level gives. A leaf that may be written
and not read is reserved. -/
def physical (va pte : U64) (level : Nat) : Option (U64 × U64) :=
  if pte.getLsbD 2 && !pte.getLsbD 1 then none
  else if (frame pte).toNat % span level ≠ 0 then none
  else some (frame pte + BitVec.ofNat 64 (va.toNat % span level), flagsOf pte)

def sv39From (pages : Pages Task Words) (va : U64) : Nat → Nat → Option (U64 × U64)
  | level, table =>
    let pte := pages.content table (vaLevel va level)
    if !pte.getLsbD 0 || (pte.getLsbD 2 && !pte.getLsbD 1) then none
    else if pte.getLsbD 1 || pte.getLsbD 3 then physical va pte level
    else
      match level with
      | 0 => none
      | next + 1 => sv39From pages va next (tableOf pte)

/-- The bits above the first 39 repeat the last of them. -/
def Canonical (va : U64) : Prop := va.toNat < 2 ^ 38 ∨ 2 ^ 64 - 2 ^ 38 ≤ va.toNat

instance (va : U64) : Decidable (Canonical va) := inferInstanceAs (Decidable (_ ∨ _))

def sv39 (pages : Pages Task Words) (root : Nat) (va : U64) : Option (U64 × U64) :=
  if Canonical va then sv39From pages va 2 root else none

/-! ## The walk and the leaf of an address -/

theorem sv39From_reading (pages : Pages Task Words) (va : U64) (level table : Nat) :
    sv39From pages va level table = match readEntry (pages.content table (vaLevel va level)) with
      | .absent => none
      | .leaf => physical va (pages.content table (vaLevel va level)) level
      | .table next => match level with
        | 0 => none
        | lower + 1 => sv39From pages va lower next := by
  have flags := flags_of_reading (pages.content table (vaLevel va level))
  rw [sv39From.eq_def]
  simp only [isValid_eq, isLeaf_eq] at flags
  cases reading : readEntry (pages.content table (vaLevel va level)) with
  | absent =>
    simp only [reading] at flags
    simp only [flags, Bool.not_false, Bool.true_or, if_true]
  | leaf =>
    simp only [reading, Bool.or_eq_true] at flags
    rcases flags with ⟨valid, isLeaf⟩
    cases readable : (pages.content table (vaLevel va level)).getLsbD 1 with
    | true =>
      simp only [valid, readable, Bool.not_true, Bool.and_false, Bool.or_false,
        Bool.false_eq_true, Bool.true_or, if_true, if_false]
    | false =>
      cases writable : (pages.content table (vaLevel va level)).getLsbD 2 with
      | true =>
        simp only [readable, writable, physical, Bool.not_false, Bool.and_self, Bool.or_true,
          if_true]
      | false =>
        simp only [readable, writable, Bool.false_eq_true, false_or] at isLeaf
        simp only [valid, readable, writable, isLeaf, Bool.not_true, Bool.false_and,
          Bool.or_self, Bool.false_or, Bool.false_eq_true, if_true, if_false]
  | table next =>
    simp only [reading, Bool.or_eq_false_iff] at flags
    rcases flags with ⟨valid, ⟨⟨notReadable, notWritable⟩, notExecutable⟩, rfl⟩
    simp only [valid, notReadable, notWritable, notExecutable, Bool.not_true, Bool.false_and,
      Bool.or_self, Bool.false_eq_true, if_false]

theorem sv39From_eq (pages : Pages Task Words) (va : U64) (level : Nat) :
    ∀ cur, level ≤ 2 → sv39From pages va level cur = (Radix.lookup readEntry pages.content cur
        (vaLevel va level :: (indices va).drop (3 - level))).bind
          fun leaf => physical va leaf.1 leaf.2.length := by
  induction level with
  | zero =>
    intro cur _
    rw [sv39From_reading, Radix.lookup]
    cases readEntry (pages.content cur (vaLevel va 0)) <;> rfl
  | succ level induction =>
    intro cur inTable
    rw [sv39From_reading, Radix.lookup]
    have length : ((indices va).drop (3 - (level + 1))).length = level + 1 := by
      rw [List.length_drop]
      simp only [indices, List.length_cons, List.length_nil]
      omega
    have rest : (indices va).drop (3 - (level + 1)) =
        vaLevel va level :: (indices va).drop (3 - level) := by
      have split : level = 0 ∨ level = 1 := by omega
      rcases split with rfl | rfl <;> rfl
    cases reading : readEntry (pages.content cur (vaLevel va (level + 1))) with
    | absent => rfl
    | leaf => simp only [Option.bind_some, length]
    | table next =>
      simp only [rest]
      exact induction next (by omega)

theorem sv39_eq (pages : Pages Task Words) (root : Nat) (canonical : Canonical va) :
    sv39 pages root va =
      (leafOf pages root (indices va)).bind fun leaf => physical va leaf.1 leaf.2.length := by
  rw [sv39, if_pos canonical, sv39From_eq pages va 2 root (Nat.le_refl 2)]
  rfl

theorem indices_upper (va : U64) :
    indices va = indices (BitVec.ofNat 64 (va.toNat % 2 ^ 39)) := by
  have small : va.toNat % 2 ^ 39 < 2 ^ 64 := Nat.lt_trans (Nat.mod_lt _ (by decide)) (by decide)
  simp only [indices, vaLevel_eq, BitVec.toNat_ofNat, Nat.mod_eq_of_lt small, List.cons.injEq,
    and_true, PGSIZE]
  omega

/-! ## Leaves of a range -/

theorem physical_leafPte {level : Nat} (small : pa.toNat < 2 ^ 56) (isFlags : IsFlags attr)
    (readable : attr.getLsbD 1 = true) (aligned : pa.toNat % span level = 0) :
    physical x (leafPte pa attr) level =
      some (pa + BitVec.ofNat 64 (x.toNat % span level), PTE_V ||| attr.setWidth 64) := by
  have onPage : pa.toNat / PGSIZE * PGSIZE = pa.toNat := by
    apply Nat.div_mul_cancel
    exact Nat.dvd_trans (Nat.dvd_mul_right PGSIZE _) (Nat.dvd_of_mod_eq_zero aligned)
  have isFrame : frame (leafPte pa attr) = pa := by
    apply BitVec.eq_of_toNat_eq
    rw [frame_leafPte small isFlags, onPage]
  have bit : (leafPte pa attr).getLsbD 1 = true := by
    rw [getLsbD_leafPte pa attr (by decide), readable]
    rfl
  rw [physical, bit, isFrame, flagsOf_leafPte isFlags, if_neg (by simp), if_neg (by simp [aligned])]

theorem span_level (gra : Granularity) : span gra.level = gra.delta := gra.delta_eq.symm

theorem physical_rangePte (aligned : va.toNat % gra.delta = 0) (paAligned : pa.toNat % gra.delta = 0)
    (inside : va.toNat ≤ x.toNat) (small : pa.toNat + (x.toNat - va.toNat) < 2 ^ 56)
    (isFlags : IsFlags attr) (readable : attr.getLsbD 1 = true) :
    physical x (rangePte va pa attr gra x) gra.level =
      some (pa + (x - va), PTE_V ||| attr.setWidth 64) := by
  have offset : (x.toNat - va.toNat) / gra.delta * gra.delta + x.toNat % gra.delta =
      x.toNat - va.toNat := by
    rcases gra.delta_cases with is | is | is <;> rw [is] at aligned ⊢ <;> omega
  have page : (pa + BitVec.ofNat 64 ((x.toNat - va.toNat) / gra.delta * gra.delta)).toNat =
      pa.toNat + (x.toNat - va.toNat) / gra.delta * gra.delta := by
    rw [BitVec.toNat_add, BitVec.toNat_ofNat, Nat.add_mod_mod]
    exact Nat.mod_eq_of_lt (by omega)
  have pageAligned :
      (pa + BitVec.ofNat 64 ((x.toNat - va.toNat) / gra.delta * gra.delta)).toNat %
        span gra.level = 0 := by
    rw [page, span_level, Nat.add_mul_mod_self_right, paAligned]
  rw [rangePte, physical_leafPte (by rw [page]; omega) isFlags readable pageAligned, span_level]
  have sum : pa + BitVec.ofNat 64 ((x.toNat - va.toNat) / gra.delta * gra.delta) +
      BitVec.ofNat 64 (x.toNat % gra.delta) = pa + (x - va) := by
    rw [BitVec.add_assoc, ← BitVec.ofNat_add, offset]
    congr 1
    apply BitVec.eq_of_toNat_eq
    rw [BitVec.toNat_sub_of_le inside, BitVec.toNat_ofNat]
    exact Nat.mod_eq_of_lt (by omega)
  rw [sum]

end Tnix.Vm
