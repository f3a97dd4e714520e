import Tnix.Mem.Sv39

/-! # Regions

A table into which regions have been mapped, one after the other, has the leaves of the last
region that an address is in. -/

namespace Tnix.Vm

open Mem

structure Region where
  va : U64
  bound : U64
  pa : U64
  attr : BitVec 16
  gra : Granularity

def smallRegion (va pa size : U64) (attr : BitVec 16) : Region :=
  ⟨va, rangeEnd va size .S_PAGE, pa, attr, .S_PAGE⟩

def Region.Has (region : Region) (x : U64) : Prop := InRange region.va region.bound x

instance (region : Region) (x : U64) : Decidable (region.Has x) :=
  inferInstanceAs (Decidable (InRange _ _ _))

def Region.leaf (region : Region) (x : U64) : Option (U64 × List Nat) :=
  leafFor (rangePte region.va region.pa region.attr region.gra x) region.gra x

/-- The leaf of an address, after regions have been mapped; the last one comes first. -/
def leafIn : List Region → U64 → Option (U64 × List Nat)
  | [], _ => none
  | region :: regions, x => if region.Has x then region.leaf x else leafIn regions x

def translateIn : List Region → U64 → Option (U64 × U64)
  | [], _ => none
  | region :: regions, x =>
    if region.Has x then
      some (region.pa + (x - region.va), PTE_V ||| region.attr.setWidth 64)
    else translateIn regions x

structure Region.Sound (region : Region) : Prop where
  aligned : region.va.toNat % region.gra.delta = 0
  paAligned : region.pa.toNat % region.gra.delta = 0
  small : region.pa.toNat + (region.bound.toNat - region.va.toNat) < 2 ^ 56
  isFlags : IsFlags region.attr
  readable : region.attr.getLsbD 1 = true

variable {region : Region} {regions : List Region} {x : U64}

theorem Region.Sound.leaf_eq (sound : region.Sound) (x : U64) :
    region.leaf x = some (rangePte region.va region.pa region.attr region.gra x,
      (indices x).drop (3 - region.gra.level)) := by
  have permits : Permits region.attr := by
    rw [Permits, sound.readable]
    rfl
  have isLeaf : readEntry (rangePte region.va region.pa region.attr region.gra x) = .leaf :=
    readEntry_leafPte _ permits
  rw [Region.leaf, leafFor, if_pos isLeaf]

theorem physical_leafIn (sound : ∀ region ∈ regions, region.Sound) (x : U64) :
    ((leafIn regions x).bind fun leaf => physical x leaf.1 leaf.2.length) =
      translateIn regions x := by
  induction regions with
  | nil => rfl
  | cons region regions induction =>
    have isSound := sound region List.mem_cons_self
    rw [leafIn, translateIn]
    by_cases isHere : region.Has x
    · have small := isSound.small
      have below : x.toNat < region.bound.toNat := isHere.2
      have length : ((indices x).drop (3 - region.gra.level)).length = region.gra.level := by
        cases region.gra <;> rfl
      rw [if_pos isHere, if_pos isHere, isSound.leaf_eq, Option.bind_some, length]
      exact physical_rangePte isSound.aligned isSound.paAligned isHere.1 (by omega)
        isSound.isFlags isSound.readable
    · rw [if_neg isHere, if_neg isHere]
      exact induction fun other isOther => sound other (List.mem_cons_of_mem _ isOther)

theorem leafIn_of_mem (sound : ∀ region ∈ regions, region.Sound) (isRegion : region ∈ regions)
    (isHere : region.Has x) :
    ∃ leaf, leafIn regions x = some leaf := by
  induction regions with
  | nil => cases isRegion
  | cons first regions induction =>
    rw [leafIn]
    by_cases isFirst : first.Has x
    · rw [if_pos isFirst, (sound first List.mem_cons_self).leaf_eq]
      exact ⟨_, rfl⟩
    · rw [if_neg isFirst]
      rcases List.mem_cons.mp isRegion with rfl | isLater
      · exact absurd isHere isFirst
      · exact induction (fun other isOther => sound other (List.mem_cons_of_mem _ isOther)) isLater

theorem length_leafIn (small : ∀ region ∈ regions, region.gra = .S_PAGE) {pte : U64}
    {below : List Nat} (found : leafIn regions x = some (pte, below)) : below.length = 0 := by
  induction regions with
  | nil => cases found
  | cons region regions induction =>
    rw [leafIn] at found
    split at found
    case isTrue isHere =>
      rw [Region.leaf, leafFor, small region List.mem_cons_self] at found
      split at found
      case isTrue => cases found; rfl
      case isFalse => cases found
    case isFalse =>
      exact induction (fun other isOther => small other (List.mem_cons_of_mem _ isOther)) found

theorem translateIn_eq_some {address flags : U64}
    (found : translateIn regions x = some (address, flags)) :
    ∃ region ∈ regions, region.Has x ∧ address = region.pa + (x - region.va) ∧
      flags = PTE_V ||| region.attr.setWidth 64 := by
  induction regions with
  | nil => cases found
  | cons region regions induction =>
    rw [translateIn] at found
    by_cases isHere : region.Has x
    · rw [if_pos isHere] at found
      cases found
      exact ⟨region, List.mem_cons_self, isHere, rfl, rfl⟩
    · rw [if_neg isHere] at found
      rcases induction found with ⟨other, isOther, rest⟩
      exact ⟨other, List.mem_cons_of_mem _ isOther, rest⟩

theorem translateIn_of_mem (isRegion : region ∈ regions) (isHere : region.Has x) :
    ∃ result, translateIn regions x = some result := by
  induction regions with
  | nil => cases isRegion
  | cons first regions induction =>
    rw [translateIn]
    by_cases isFirst : first.Has x
    · rw [if_pos isFirst]
      exact ⟨_, rfl⟩
    · rw [if_neg isFirst]
      rcases List.mem_cons.mp isRegion with rfl | isLater
      · exact absurd isHere isFirst
      · exact induction isLater

theorem leafIn_eq_find (regions : List Region) (x : U64) :
    leafIn regions x = (regions.find? fun region => region.Has x).bind (·.leaf x) := by
  induction regions with
  | nil => rfl
  | cons region regions induction =>
    rw [leafIn, List.find?_cons]
    by_cases isHere : region.Has x
    · rw [if_pos isHere, decide_eq_true isHere]
      rfl
    · rw [if_neg isHere, decide_eq_false isHere, induction]

variable (nowhere : ∀ region ∈ regions, ¬ region.Has x)
include nowhere

theorem leafIn_eq_none : leafIn regions x = none := by
  induction regions with
  | nil => rfl
  | cons region regions induction =>
    rw [leafIn, if_neg (nowhere region List.mem_cons_self)]
    exact induction fun other isOther => nowhere other (List.mem_cons_of_mem _ isOther)

theorem translateIn_eq_none : translateIn regions x = none := by
  cases found : translateIn regions x with
  | none => rfl
  | some result =>
    rcases translateIn_eq_some found with ⟨region, isRegion, isHere, _⟩
    exact absurd isHere (nowhere region isRegion)

end Tnix.Vm
