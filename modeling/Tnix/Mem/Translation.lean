import Tnix.Mem.Mapping

/-! # Translations

What `va_to_pa` finds in a page table before and after `svmmap` and `vmunmap`. -/

namespace Tnix.Vm

open Mem Program
variable {Task : Type} {stop : Nat} {live : Task → Prop} {loose : Nat → Prop} {pages : Pages Task Words}
  {free : List Nat} {root : Nat} {va pa size : U64} {attr : BitVec 16}

/-! ## A walk finds the leaf -/

def frame (pte : U64) : U64 := ((pte >>> 10) &&& BitVec.ofNat 64 (2 ^ 44 - 1)) <<< 12

def translated (va : U64) : Option (U64 × List Nat) → U64 × Option U64
  | none => (0, none)
  | some (pte, _) => (frame pte ||| (va &&& BitVec.ofNat 64 (PGSIZE - 1)), some pte)

theorem flags_of_reading (pte : U64) :
    match readEntry pte with
    | .absent => isValid pte = false
    | .leaf => isValid pte = true ∧ isLeaf pte = true
    | .table next => isValid pte = true ∧ isLeaf pte = false ∧ tableOf pte = next := by
  rw [readEntry]
  cases valid : isValid pte <;> cases leaf : isLeaf pte <;> simp

inductive Points (pages : Pages Task Words) :
    Option (U64 × List Nat) → Option (Nat × Nat) → Prop
  | none : Points pages none none
  | some {table index : Nat} {below : List Nat} (inMemory : table < NPAGE)
      (reading : readEntry (pages.content table index) = .leaf) :
      Points pages (some (pages.content table index, below)) (some (table, index))

theorem leafOf_eq {level cur : Nat} (inTable : level ≤ 2)
    (reaches : Radix.follow readEntry pages.content root ((indices va).take (2 - level)) =
      some cur) :
    leafOf pages root (indices va) = Radix.lookup readEntry pages.content cur
      (vaLevel va level :: (indices va).drop (3 - level)) := by
  rw [← Radix.lookup_append reaches, ← indices_split va inTable]

theorem Space.getPteFrom (space : Space stop live loose pages free root) (va : U64) (level : Nat) :
    ∀ {cur : Nat}, level ≤ 2 →
      Radix.follow readEntry pages.content root ((indices va).take (2 - level)) = some cur →
      ∃ found, getPteFrom va level cur pages = .ok (found, pages) ∧
        Points pages (leafOf pages root (indices va)) found := by
  induction level with
  | zero =>
    intro cur inTable reaches
    have length := length_take_indices va inTable
    have inMemory := (space.inUse ⟨_, by omega, reaches⟩).1
    have flags := flags_of_reading (pages.content cur (vaLevel va 0))
    rw [leafOf_eq inTable reaches, Radix.lookup, Vm.getPteFrom, bind_eq, readPte_eq inMemory]
    cases reading : readEntry (pages.content cur (vaLevel va 0)) with
    | absent =>
      simp only [reading] at flags
      refine ⟨none, ?_, .none⟩
      simp only [flags, Bool.false_eq_true, false_and, if_false]
      rfl
    | leaf =>
      simp only [reading] at flags
      refine ⟨some (cur, vaLevel va 0), ?_, .some inMemory reading⟩
      simp only [flags, and_self, if_true]
      rfl
    | table next =>
      simp only [reading] at flags
      refine ⟨none, ?_, .none⟩
      simp only [flags, Bool.false_eq_true, and_false, if_false]
      rfl
  | succ level induction =>
    intro cur inTable reaches
    have length := length_take_indices va inTable
    have inMemory := (space.inUse ⟨_, by omega, reaches⟩).1
    have flags := flags_of_reading (pages.content cur (vaLevel va (level + 1)))
    have leaf := leafOf_eq inTable reaches
    rw [Radix.lookup] at leaf
    rw [Vm.getPteFrom, bind_eq, readPte_eq inMemory]
    cases reading : readEntry (pages.content cur (vaLevel va (level + 1))) with
    | absent =>
      simp only [reading] at flags leaf
      rw [leaf]
      refine ⟨none, ?_, .none⟩
      simp only [flags, Bool.false_eq_true, if_false]
      rfl
    | leaf =>
      simp only [reading] at flags leaf
      rw [leaf]
      refine ⟨some (cur, vaLevel va (level + 1)), ?_, .some inMemory reading⟩
      simp only [flags, if_true]
      rfl
    | table next =>
      simp only [reading] at flags
      have reachesNext := @Radix.follow_append _ _ _ _ _ _ _ _ [vaLevel va (level + 1)] reaches
      rw [take_indices va inTable, Radix.follow, reading,
        show 3 - (level + 1) = 2 - level by omega] at reachesNext
      rcases induction (by omega) reachesNext with ⟨found, ran, points⟩
      refine ⟨found, ?_, points⟩
      simp only [flags, Bool.false_eq_true, if_true, if_false]
      exact ran

theorem Space.vaToPa (space : Space stop live loose pages free root) (va : U64) :
    vaToPa root va pages = .ok (translated va (leafOf pages root (indices va)), pages) := by
  rcases space.getPteFrom va 2 (Nat.le_refl 2) rfl with ⟨found, ran, points⟩
  rw [Vm.vaToPa, bind_eq, Vm.getPte, ran]
  revert points
  generalize leafOf pages root (indices va) = leaf
  intro points
  cases points with
  | none => rfl
  | @some table index below inMemory reading =>
    have flags := flags_of_reading (pages.content table index)
    simp only [reading] at flags
    simp only [bind_eq, readPte_eq inMemory, flags, if_true]
    rfl

/-! ## A leaf gives the address and the attributes -/

def flagsOf (pte : U64) : U64 := pte &&& 0x3FF

def IsFlags (attr : BitVec 16) : Prop := attr.toNat < 2 ^ 10

instance (attr : BitVec 16) : Decidable (IsFlags attr) := inferInstanceAs (Decidable (_ < _))

theorem toNat_flags_lt (isFlags : IsFlags attr) : (PTE_V ||| attr.setWidth 64).toNat < 2 ^ 10 := by
  rw [BitVec.toNat_or]
  refine Nat.or_lt_two_pow (by decide) ?_
  rw [BitVec.toNat_setWidth, Nat.mod_eq_of_lt (by omega)]
  exact isFlags

theorem frame_leafPte (small : pa.toNat < 2 ^ 56) (isFlags : IsFlags attr) :
    (frame (leafPte pa attr)).toNat = pa.toNat / PGSIZE * PGSIZE := by
  have number := toNat_page pa
  have mask : (BitVec.ofNat 64 (2 ^ 44 - 1)).toNat = 2 ^ 44 - 1 := rfl
  have inMask : (pa >>> 12).toNat < 2 ^ 44 := by
    rw [number, PGSIZE]
    omega
  have unmasked : (pa >>> 12) &&& BitVec.ofNat 64 (2 ^ 44 - 1) = pa >>> 12 := by
    apply BitVec.eq_of_toNat_eq
    rw [BitVec.toNat_and, mask, Nat.and_two_pow_sub_one_eq_mod, Nat.mod_eq_of_lt inMask]
  rw [frame, leafPte, BitVec.or_assoc, shift_flags (by omega) (toNat_flags_lt isFlags), unmasked,
    toNat_frame (by omega), number]

theorem flagsOf_leafPte (isFlags : IsFlags attr) :
    flagsOf (leafPte pa attr) = PTE_V ||| attr.setWidth 64 := by
  apply BitVec.eq_of_getLsbD_eq
  intro i inWord
  have mask : ∀ i < 64, (0x3FF : U64).getLsbD i = decide (i < 10) := by decide
  have few := toNat_flags_lt isFlags
  rw [flagsOf, BitVec.getLsbD_and, mask i inWord, leafPte, BitVec.or_assoc, BitVec.getLsbD_or,
    BitVec.getLsbD_shiftLeft]
  by_cases low : i < 10
  · simp [low]
  · have noFlag : (PTE_V ||| attr.setWidth 64).getLsbD i = false := by
      rw [BitVec.getLsbD, Nat.testBit_lt_two_pow]
      calc (PTE_V ||| attr.setWidth 64).toNat < 2 ^ 10 := few
        _ ≤ 2 ^ i := Nat.pow_le_pow_right (by decide) (by omega)
    rw [noFlag]
    simp [low]

theorem toNat_or_offset {base x : U64} (aligned : base.toNat % PGSIZE = 0) :
    (base ||| (x &&& BitVec.ofNat 64 (PGSIZE - 1))).toNat = base.toNat + x.toNat % PGSIZE := by
  have mask : (BitVec.ofNat 64 (PGSIZE - 1)).toNat = 2 ^ 12 - 1 := rfl
  have split : base.toNat = (base.toNat / 2 ^ 12) <<< 12 := by
    rw [Nat.shiftLeft_eq]
    simp only [PGSIZE] at aligned
    omega
  have offset : x.toNat % PGSIZE < 2 ^ 12 := Nat.mod_lt _ (by decide)
  rw [BitVec.toNat_or, BitVec.toNat_and, mask, Nat.and_two_pow_sub_one_eq_mod]
  rw [show (2 : Nat) ^ 12 = PGSIZE from rfl]
  rw [split, Nat.shiftLeft_add_eq_or_of_lt offset]

theorem translated_rangePte {x : U64} (aligned : va.toNat % PGSIZE = 0)
    (paAligned : pa.toNat % PGSIZE = 0) (inside : va.toNat ≤ x.toNat)
    (small : pa.toNat + (x.toNat - va.toNat) < 2 ^ 56) (isFlags : IsFlags attr) :
    (frame (rangePte va pa attr .S_PAGE x) ||| (x &&& BitVec.ofNat 64 (PGSIZE - 1))) =
      pa + (x - va) := by
  have offset : (x.toNat - va.toNat) / PGSIZE * PGSIZE + x.toNat % PGSIZE = x.toNat - va.toNat := by
    simp only [PGSIZE] at aligned ⊢
    omega
  have page : (pa + BitVec.ofNat 64 ((x.toNat - va.toNat) / PGSIZE * PGSIZE)).toNat =
      pa.toNat + (x.toNat - va.toNat) / PGSIZE * PGSIZE := by
    rw [BitVec.toNat_add, BitVec.toNat_ofNat, Nat.add_mod_mod]
    exact Nat.mod_eq_of_lt (by omega)
  have pageAligned :
      (pa.toNat + (x.toNat - va.toNat) / PGSIZE * PGSIZE) / PGSIZE * PGSIZE =
        pa.toNat + (x.toNat - va.toNat) / PGSIZE * PGSIZE := by
    rw [Nat.add_mul_div_right _ _ (by decide), Nat.add_mul,
      Nat.div_mul_cancel (Nat.dvd_of_mod_eq_zero paAligned)]
  have isFrame : (frame (rangePte va pa attr .S_PAGE x)).toNat =
      pa.toNat + (x.toNat - va.toNat) / PGSIZE * PGSIZE := by
    rw [rangePte, show Granularity.S_PAGE.delta = PGSIZE from rfl,
      frame_leafPte (by rw [page]; omega) isFlags, page, pageAligned]
  apply BitVec.eq_of_toNat_eq
  rw [toNat_or_offset (by rw [isFrame, ← pageAligned]; exact Nat.mul_mod_left _ _), isFrame,
    Nat.add_assoc, offset, BitVec.toNat_add, BitVec.toNat_sub_of_le inside, Nat.mod_eq_of_lt]
  omega

/-! ## Mapping and unmapping a range -/

/-- What `va_to_pa` says of an address: the physical address, and the flags of the entry if
there is one. -/
def translation (pages : Pages Task Words) (ptb : Nat) (va : U64) :
    Except MemFault (U64 × Option U64) :=
  (vaToPa ptb va pages).map fun result => (result.1.1, result.1.2.map flagsOf)

theorem Space.translation_eq (space : Space stop live loose pages free root) (x : U64) :
    translation pages root x = .ok ((translated x (leafOf pages root (indices x))).1,
        (translated x (leafOf pages root (indices x))).2.map flagsOf) := by
  rw [translation, space.vaToPa]
  rfl

/-- The address is on one of the pages of a range. -/
def OnPages (va size x : U64) : Prop :=
  va.toNat ≤ x.toNat ∧ x.toNat < alignUp (va.toNat + size.toNat) PGSIZE

instance (va size x : U64) : Decidable (OnPages va size x) := inferInstanceAs (Decidable (_ ∧ _))

theorem inRange_rangeEnd (below : va.toNat + size.toNat ≤ VA_TOP) (x : U64) :
    InRange va (rangeEnd va size .S_PAGE) x ↔ OnPages va size x := by
  rw [InRange, (toNat_rangeEnd below .S_PAGE).1]
  rfl

/-- The pages of a range are mapped by `svmmap` and, after it, unmapped by `vmunmap`, and no
other address gets another translation. -/
theorem svmmap_vmunmap_exact [DecidableEq Task] {ut : Option Task}
    (space : Space stop live loose pages free root) (isLive : ∀ t, ut = some t → live t)
    (noLarger : ∀ x, OnPages va size x → NoLarger pages root x .S_PAGE)
    (aligned : va.toNat % PGSIZE = 0) (paAligned : pa.toNat % PGSIZE = 0)
    (below : va.toNat + size.toNat ≤ VA_TOP) (paBelow : pa.toNat + size.toNat ≤ PHY_TOP)
    (permits : Permits attr) (isFlags : IsFlags attr) :
    YieldsOr (svmmap root va pa size attr ut) pages
      (Exhausted free (2 * ((size.toNat + PGSIZE - 1) / PGSIZE))) fun _ mapped =>
        (∀ x : U64, x.toNat < VA_TOP → translation mapped root x =
          if OnPages va size x then .ok (pa + (x - va), some (PTE_V ||| attr.setWidth 64))
          else translation pages root x) ∧
        ∃ unmapped, vmunmap root va size mapped = .ok ((), unmapped) ∧
          ∀ x : U64, x.toNat < VA_TOP → translation unmapped root x =
            if OnPages va size x then .ok (0, none) else translation pages root x := by
  have sameRange := inRange_rangeEnd below
  have count : turns va (rangeEnd va size .S_PAGE) .S_PAGE =
      (size.toNat + PGSIZE - 1) / PGSIZE := by
    rw [turns, (toNat_rangeEnd below .S_PAGE).1, alignUp,
      show Granularity.S_PAGE.delta = PGSIZE from rfl]
    simp only [PGSIZE] at aligned ⊢
    omega
  have maps := @Space.svmmap _ stop live loose pages free ut root va pa attr _ size space isLive
    aligned paAligned below paBelow (fun x isIn => noLarger x ((sameRange x).mp isIn))
  rw [count] at maps
  refine maps.mono ?_ (fun _ => id)
  rintro _ mapped ⟨used, rest, grows, _, leaves⟩
  have newLeaf : ∀ x : U64, x.toNat < 2 ^ 39 → OnPages va size x →
      leafOf mapped root (indices x) = some (rangePte va pa attr .S_PAGE x, []) := by
    intro x xInRange isOn
    rw [leaves x xInRange, if_pos ((sameRange x).mpr isOn), leafFor, rangePte,
      readEntry_leafPte _ permits]
    rfl
  have oldLeaf : ∀ x : U64, x.toNat < 2 ^ 39 → ¬ OnPages va size x →
      leafOf mapped root (indices x) = leafOf pages root (indices x) := by
    intro x xInRange notOn
    rw [leaves x xInRange, if_neg (fun isIn => notOn ((sameRange x).mp isIn))]
  have walkable : ∀ x : U64, x.toNat < VA_TOP → x.toNat < 2 ^ 39 := fun x isBelow =>
    Nat.lt_trans isBelow (by decide)
  refine ⟨?_, ?_⟩
  · intro x xBelow
    have xInRange := walkable x xBelow
    rw [grows.space.translation_eq]
    by_cases isOn : OnPages va size x
    · have small : pa.toNat + (x.toNat - va.toNat) < 2 ^ 56 := by
        simp only [PHY_TOP, PHY_MEMORY, PHY_SIZE] at paBelow
        omega
      rw [if_pos isOn, newLeaf x xInRange isOn, translated,
        translated_rangePte aligned paAligned isOn.1 small isFlags]
      simp only [Option.map_some, rangePte, flagsOf_leafPte isFlags]
    · rw [if_neg isOn, oldLeaf x xInRange isOn, space.translation_eq]
  · have stillNoLarger : ∀ x, InRange va (rangeEnd va size .S_PAGE) x →
        NoLarger mapped root x .S_PAGE := by
      intro x isIn pte belowPath found
      rw [newLeaf x (isIn.walkable (toNat_rangeEnd below .S_PAGE).2.2) ((sameRange x).mp isIn)] at found
      cases found
      exact Nat.le_refl 0
    rcases grows.space.vmunmap aligned below stillNoLarger with ⟨unmapped, ran, growsOn, left⟩
    refine ⟨unmapped, ran, ?_⟩
    intro x xBelow
    have xInRange := walkable x xBelow
    rw [growsOn.space.translation_eq, left x xInRange]
    by_cases isOn : OnPages va size x
    · rw [if_pos isOn, if_pos ((sameRange x).mpr isOn)]
      rfl
    · rw [if_neg isOn, if_neg (fun isIn => isOn ((sameRange x).mp isIn)), oldLeaf x xInRange isOn,
        space.translation_eq]

theorem exists_emptySpace : ∃ (pages : Pages Unit Words) (free : List Nat) (root : Nat),
    Space PHY_MEMORY (fun _ => False) (fun _ => False) pages free root ∧ 2 ≤ free.length ∧
      ∀ path, leafOf pages root path = none := by
  rcases @initMemory_holds Unit Words _ PHY_MEMORY (fun _ _ => 0) with ⟨pages, _, holds⟩
  have allFree : freePages PHY_MEMORY NPAGE = List.range NPAGE := by
    refine List.filter_eq_self.mpr ?_
    intro p _
    simp [Pages.reserved, alignUp, PHY_MEMORY, PGSIZE]
  have pool : Pool PHY_MEMORY (fun _ : Unit => False) (fun _ => False) pages
      (freePages PHY_MEMORY NPAGE) :=
    ⟨_, holds, fun _ isLive => isLive.elim, fun _ isLoose => isLoose.elim⟩
  have made := @Pool.newSpace _ _ _ _ _ _ none _ pool (by rintro _ ⟨⟩)
  have enough : ∀ fault, ¬ Exhausted (freePages PHY_MEMORY NPAGE) 1 fault := by
    rintro fault ⟨_, few⟩
    rw [allFree, List.length_range] at few
    exact absurd few (by decide)
  rcases made.yields enough with ⟨root, after, ran, rest, isFree, space, leaves, _⟩
  refine ⟨after, rest, root, space, ?_, leaves⟩
  have count := congrArg List.length isFree
  rw [allFree, List.length_range, List.length_cons] at count
  have many : 2 < NPAGE := by decide
  omega

theorem svmmap_vmunmap_exact_page : ∃ (pages mapped unmapped : Pages Unit Words) (root : Nat),
    svmmap root 0x1000 0x80000000 0x1000 (PTE_R ||| PTE_W) none pages = .ok ((), mapped) ∧
      translation mapped root 0x1234 = .ok (0x80000234, some 7) ∧
      vmunmap root 0x1000 0x1000 mapped = .ok ((), unmapped) ∧
      translation unmapped root 0x1234 = .ok (0, none) := by
  rcases exists_emptySpace with ⟨pages, free, root, space, enough, leaves⟩
  have noLarger : ∀ x, OnPages 0x1000 0x1000 x → NoLarger pages root x .S_PAGE := by
    intro x _ pte below found
    rw [leaves] at found
    cases found
  have exactly :=
    @svmmap_vmunmap_exact _ _ _ _ _ _ _ 0x1000 0x80000000 0x1000 (PTE_R ||| PTE_W) _ none
    space (by rintro _ ⟨⟩) noLarger (by decide) (by decide) (by decide) (by decide) (by decide)
    (by decide)
  have noExcuse : ∀ fault, ¬ Exhausted free
      (2 * (((0x1000 : U64).toNat + PGSIZE - 1) / PGSIZE)) fault := by
    rintro fault ⟨_, few⟩
    exact absurd few (Nat.not_lt.mpr enough)
  rcases exactly.yields noExcuse with ⟨_, mapped, ran, maps, unmapped, ranOn, unmaps⟩
  refine ⟨pages, mapped, unmapped, root, ran, ?_, ranOn, ?_⟩
  · rw [maps 0x1234 (by decide)]
    rfl
  · rw [unmaps 0x1234 (by decide)]
    rfl

/-- A bit of `attr` above the flags is stored in the address. -/
theorem svmmap_wide_attr : ∃ (pages mapped : Pages Unit Words) (free : List Nat) (root : Nat),
    Space PHY_MEMORY (fun _ => False) (fun _ => False) pages free root ∧ 2 ≤ free.length ∧
      (∀ x, NoLarger pages root x .S_PAGE) ∧ Permits 0x402 ∧
      svmmap root 0x1000 0x80000000 0x1000 0x402 none pages = .ok ((), mapped) ∧
      translation mapped root 0x1234 = .ok (0x80001234, some 3) := by
  rcases exists_emptySpace with ⟨pages, free, root, space, enough, leaves⟩
  have noLarger : ∀ x, NoLarger pages root x .S_PAGE := by
    intro x pte below found
    rw [leaves] at found
    cases found
  have maps := @Space.svmmap _ _ _ _ _ _ none _ 0x1000 0x80000000 0x402 _ 0x1000 space
    (by rintro _ ⟨⟩) (by decide) (by decide) (by decide) (by decide) (fun x _ => noLarger x)
  have noExcuse : ∀ fault, ¬ Exhausted free
      (2 * turns 0x1000 (rangeEnd 0x1000 0x1000 .S_PAGE) .S_PAGE) fault := by
    rintro fault ⟨_, few⟩
    exact absurd few (Nat.not_lt.mpr enough)
  rcases maps.yields noExcuse with ⟨_, mapped, ran, used, rest, grows, _, found⟩
  refine ⟨pages, mapped, free, root, space, enough, noLarger, by decide, ran, ?_⟩
  rw [grows.space.translation_eq, found 0x1234 (by decide)]
  rfl

end Tnix.Vm
