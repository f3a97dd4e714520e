import Mathlib.Tactic.IntervalCases
import Tnix.Foundation.BitField
import Tnix.Mem.PageTable

/-! # What mapping does

Mapping adds free pages to a tree of pages in use and changes the translations of the addresses
that it maps, and no other. -/

namespace Tnix.Vm

open Function Mem Program Radix Finset
variable {Task : Type}

/-! ## Entries -/

def readEntry (pte : U64) : Reading Nat :=
  if isValid pte then if isLeaf pte then .leaf else .table (tableOf pte) else .absent

theorem toNat_paddr {p : Nat} (inMemory : p < NPAGE) :
    (paddr p).toNat = PHY_MEMORY + p * PGSIZE := by
  have small : p < 131072 := inMemory
  rw [paddr, BitVec.toNat_ofNat]
  apply Nat.mod_eq_of_lt
  simp only [PHY_MEMORY, PGSIZE]
  omega

theorem shift_flags {number flags : U64} (small : number.toNat < 2 ^ 54)
    (few : flags.toNat < 2 ^ 10) : ((number <<< 10) ||| flags) >>> 10 = number := by
  apply BitVec.eq_of_getLsbD_eq
  intro i inWord
  rw [BitVec.getLsbD_ushiftRight, BitVec.getLsbD_or, BitVec.getLsbD_shiftLeft]
  have noFlag : flags.getLsbD (10 + i) = false := by
    rw [BitVec.getLsbD, Nat.testBit_lt_two_pow]
    calc flags.toNat < 2 ^ 10 := few
      _ ≤ 2 ^ (10 + i) := Nat.pow_le_pow_right (by decide) (Nat.le_add_right 10 i)
  rw [noFlag, Bool.or_false, Nat.add_sub_cancel_left]
  by_cases low : 10 + i < 64
  · simp [low]
  · have high : number.getLsbD i = false := by
      rw [BitVec.getLsbD, Nat.testBit_lt_two_pow]
      calc number.toNat < 2 ^ 54 := small
        _ ≤ 2 ^ i := Nat.pow_le_pow_right (by decide) (by omega)
    simp [low, high]

theorem toNat_frame {number : U64} (small : number.toNat < 2 ^ 52) :
    (number <<< 12).toNat = number.toNat * PGSIZE := by
  rw [BitVec.toNat_shiftLeft, Nat.shiftLeft_eq, PGSIZE]
  omega

theorem toNat_page (address : U64) : (address >>> 12).toNat = address.toNat / PGSIZE := by
  rw [BitVec.toNat_ushiftRight, Nat.shiftRight_eq_div_pow, PGSIZE]

theorem tableOf_tablePte {p : Nat} (inMemory : p < NPAGE) : tableOf (tablePte p) = p := by
  have small : p < 131072 := inMemory
  have number : (paddr p >>> 12).toNat = 0x80000 + p := by
    rw [toNat_page, toNat_paddr inMemory]
    simp only [PHY_MEMORY, PGSIZE]
    omega
  rw [tableOf, tablePte, shift_flags (by omega) (by decide), pageOf, BitVec.toNat_sub,
    toNat_frame (by omega), number, BitVec.toNat_ofNat]
  simp only [PHY_MEMORY, PGSIZE]
  omega

theorem isValid_eq (pte : U64) : isValid pte = pte.getLsbD 0 := by
  have mask := BitField.and_bit_eq_zero pte (show 0 < 64 by decide)
  rw [isValid, show PTE_V = 1#64 <<< 0 from rfl]
  cases value : pte.getLsbD 0 with
  | false =>
    rw [mask.mpr value]
    rfl
  | true =>
    rw [bne_iff_ne]
    intro isZero
    rw [mask.mp isZero] at value
    cases value

theorem isLeaf_eq (pte : U64) :
    isLeaf pte = (pte.getLsbD 1 || pte.getLsbD 2 || pte.getLsbD 3) := by
  have mask : ∀ i < 64, PTE_RWX.getLsbD i = (i == 1 || i == 2 || i == 3) := by decide
  rw [isLeaf, Bool.eq_iff_iff, bne_iff_ne]
  constructor
  · intro nonzero
    by_contra none
    apply nonzero
    simp only [Bool.or_eq_true, not_or, Bool.not_eq_true] at none
    apply BitVec.eq_of_getLsbD_eq
    intro i inWord
    rw [BitVec.getLsbD_and, mask i inWord]
    have isOff : (pte.getLsbD i && (i == 1 || i == 2 || i == 3)) = false := by
      rw [Bool.and_eq_false_iff]
      by_cases first : i = 1
      · exact .inl (first ▸ none.1.1)
      · by_cases second : i = 2
        · exact .inl (second ▸ none.1.2)
        · by_cases third : i = 3
          · exact .inl (third ▸ none.2)
          · exact .inr (by simp [first, second, third])
    rw [isOff]
    exact BitVec.getLsbD_zero.symm
  · intro someBit isZero
    have bit : ∀ i, (pte &&& PTE_RWX).getLsbD i = false := by
      intro i
      rw [isZero]
      exact BitVec.getLsbD_zero
    have first := bit 1
    have second := bit 2
    have third := bit 3
    rw [BitVec.getLsbD_and, mask _ (by decide)] at first second third
    simp only [Bool.or_eq_true] at someBit
    simp_all

theorem readEntry_zero : readEntry 0 = .absent := rfl

theorem readEntry_of_valid {pte : U64} (valid : isValid pte = true)
    (notLeaf : readEntry pte ≠ .leaf) : readEntry pte = .table (tableOf pte) := by
  rw [readEntry, if_pos valid] at notLeaf ⊢
  split at notLeaf
  case isTrue => exact absurd rfl notLeaf
  case isFalse isNot => rw [if_neg isNot]

theorem readEntry_tablePte {p : Nat} (inMemory : p < NPAGE) :
    readEntry (tablePte p) = .table p := by
  have bits : ∀ i < 10, (tablePte p).getLsbD i = (i == 0) := by
    intro i low
    have below : ¬ 10 ≤ i := by omega
    rw [tablePte, BitVec.getLsbD_or, BitVec.getLsbD_shiftLeft]
    interval_cases i <;> simp [PTE_V]
  rw [readEntry, isValid_eq, isLeaf_eq, bits 0 (by decide), bits 1 (by decide),
    bits 2 (by decide), bits 3 (by decide), tableOf_tablePte inMemory]
  rfl

theorem getLsbD_leafPte (pa : U64) (attr : BitVec 16) {i : Nat} (low : i < 10) :
    (leafPte pa attr).getLsbD i = (i == 0 || attr.getLsbD i) := by
  rw [leafPte, BitVec.getLsbD_or, BitVec.getLsbD_or, BitVec.getLsbD_shiftLeft,
    BitVec.getLsbD_setWidth]
  interval_cases i <;> simp [PTE_V]

def Permits (attr : BitVec 16) : Prop :=
  (attr.getLsbD 1 || attr.getLsbD 2 || attr.getLsbD 3) = true

instance (attr : BitVec 16) : Decidable (Permits attr) := inferInstanceAs (Decidable (_ = _))

theorem readEntry_leafPte (pa : U64) {attr : BitVec 16} (permits : Permits attr) :
    readEntry (leafPte pa attr) = .leaf := by
  rw [readEntry, isValid_eq, isLeaf_eq, getLsbD_leafPte _ _ (by decide),
    getLsbD_leafPte _ _ (by decide), getLsbD_leafPte _ _ (by decide),
    getLsbD_leafPte _ _ (by decide)]
  have permitted := permits
  rw [Permits] at permitted
  simp only [beq_self_eq_true, Bool.true_or, if_true]
  have same : ((1 == 0 || attr.getLsbD 1) || (2 == 0 || attr.getLsbD 2) ||
      (3 == 0 || attr.getLsbD 3)) = true := by simpa using permitted
  rw [if_pos same]

/-! ## Paths -/

theorem vaLevel_eq (va : U64) (level : Nat) :
    vaLevel va level = va.toNat / PGSIZE / 512 ^ level % 512 := by
  have mask : (0x1FF : U64).toNat = 2 ^ 9 - 1 := rfl
  rw [vaLevel, BitVec.toNat_and, mask, Nat.and_two_pow_sub_one_eq_mod, BitVec.toNat_ushiftRight,
    toNat_page, Nat.shiftRight_eq_div_pow, Nat.pow_mul]

def indices (va : U64) : List Nat := [vaLevel va 2, vaLevel va 1, vaLevel va 0]

theorem indices_inj {va other : U64} (inRange : va.toNat < 2 ^ 39)
    (otherInRange : other.toNat < 2 ^ 39) :
    indices va = indices other ↔ va.toNat / PGSIZE = other.toNat / PGSIZE := by
  simp only [indices, vaLevel_eq, List.cons.injEq, and_true, PGSIZE] at *
  omega

/-! ## Pages of tables -/

/-- The free pages, in their order; the `live` tasks have a list of pages, and the `loose` pages
are on no list. -/
def Pool (stop : Nat) (live : Task → Prop) (loose : Nat → Prop) (pages : Pages Task Words)
    (free : List Nat) : Prop :=
  ∃ lists : Mem.Lists Task, Holds stop pages lists free ∧ (∀ t, live t → (lists (some t)).isSome) ∧
    ∀ p, loose p → lists.Off p

def Exhausted (free : List Nat) (count : Nat) (fault : MemFault) : Prop :=
  fault = .panic "alloc_page: memory exhausted" ∧ free.length < count

variable {stop : Nat} {live : Task → Prop} {loose : Nat → Prop} {pages after : Pages Task Words}
  {free rest used : List Nat} {ut : Option Task}

namespace Pool

variable (pool : Pool stop live loose pages free)
include pool

theorem ofContent (content : Nat → Words) :
    Pool stop live loose { pages with content := content } free := by
  rcases pool with ⟨lists, holds, lives⟩
  exact ⟨lists, ⟨holds.threaded, holds.isFree, holds.inuse, holds.usable⟩, lives⟩

theorem nodup : free.Nodup := by
  rcases pool with ⟨lists, holds, _⟩
  exact holds.threaded.nodup holds.isFree

theorem inMemory {p : Nat} (isFree : p ∈ free) : p < NPAGE := by
  rcases pool with ⟨lists, holds, _⟩
  exact (holds.usable holds.isFree isFree).1

end Pool

abbrev InTable (pages : Pages Task Words) (root p : Nat) : Prop :=
  Radix.Reaches readEntry pages.content root 3 p

/-- The leaf for a path, with the indices below it. -/
abbrev leafOf (pages : Pages Task Words) (root : Nat) (path : List Nat) :
    Option (U64 × List Nat) :=
  Radix.lookup readEntry pages.content root path

/-- A page table whose pages are in use. -/
structure Space (stop : Nat) (live : Task → Prop) (loose : Nat → Prop) (pages : Pages Task Words)
    (free : List Nat)
    (root : Nat) : Prop where
  pool : Pool stop live loose pages free
  tree : Radix.Tree readEntry pages.content root 3
  inUse : ∀ {p}, InTable pages root p → p < NPAGE ∧ p ∉ free

def toMake (pages : Pages Task Words) (root : Nat) (paths : Finset (List Nat)) : Nat :=
  (Radix.missing readEntry pages.content root paths).card

/-- The table has got the pages `used`, and nothing but its pages has changed. -/
structure Grows (stop : Nat) (live : Task → Prop) (loose : Nat → Prop) (root : Nat)
    (pages after : Pages Task Words) (free used rest : List Nat) : Prop where
  space : Space stop live loose after rest root
  free_eq : free = used ++ rest
  inTable : ∀ {p}, InTable after root p → InTable pages root p ∨ p ∈ used
  frame : ∀ {p}, ¬ InTable pages root p → p ∉ used → after.content p = pages.content p

namespace Grows

variable {root : Nat}

theorem refl (space : Space stop live loose pages free root) :
    Grows stop live loose root pages pages free [] free :=
  ⟨space, rfl, .inl, fun _ _ => rfl⟩

theorem trans {final : Pages Task Words} {loose' : Nat → Prop} {used' rest' : List Nat}
    (first : Grows stop live loose root pages after free used rest)
    (second : Grows stop live loose' root after final rest used' rest') :
    Grows stop live loose' root pages final free (used ++ used') rest' := by
  refine ⟨second.space, ?_, ?_, ?_⟩
  · rw [first.free_eq, second.free_eq, List.append_assoc]
  · intro p inFinal
    rw [List.mem_append]
    rcases second.inTable inFinal with inAfter | isUsed
    · exact (first.inTable inAfter).imp_right .inl
    · exact .inr (.inr isUsed)
  · intro p notIn notUsed
    rw [List.mem_append, not_or] at notUsed
    have notAfter : ¬ InTable after root p := by
      intro inAfter
      rcases first.inTable inAfter with inBefore | isUsed
      · exact notIn inBefore
      · exact notUsed.1 isUsed
    rw [second.frame notAfter notUsed.2, first.frame notIn notUsed.1]

end Grows

/-! ## One address -/

section
variable {root cur vpn : Nat} {path : List Nat} {paths : Finset (List Nat)}

theorem readPte_eq {table : Nat} (inMemory : table < NPAGE) (index : Nat) :
    readPte table index pages = .ok (pages.content table index, pages) := by
  rw [readPte, bind_eq]
  simp only [get, getThe, MonadStateOf.get, StateT.get, pure, Except.pure, if_pos inMemory]
  rfl

theorem writePte_eq {table : Nat} (inMemory : table < NPAGE) (index : Nat) (pte : U64) :
    writePte table index pte pages =
      .ok ((), { pages with content := Radix.store pages.content table index pte }) := by
  rw [writePte, bind_eq]
  simp only [get, getThe, MonadStateOf.get, StateT.get, pure, Except.pure, if_pos inMemory]
  rfl

theorem Space.writePte (space : Space stop live loose pages free root)
    (reaches : Radix.follow readEntry pages.content root path = some cur)
    (short : path.length < 3) {pte : U64}
    (cut : path.length + 1 < 3 → ∀ next, readEntry pte ≠ .table next) :
    ∃ after : Pages Task Words, Vm.writePte cur vpn pte pages = .ok ((), after) ∧
      Grows stop live loose root pages after free [] free ∧
      (∀ paths : Finset (List Nat),
        (∀ other ∈ paths, other.length ≤ 3 ∧ ¬ path ++ [vpn] <+: other) →
        toMake after root paths = toMake pages root paths) ∧
      (∀ other : List Nat, other.length ≤ 3 → ¬ path ++ [vpn] <+: other →
        leafOf after root other = leafOf pages root other) ∧
      ∀ below : List Nat, path.length + 1 + below.length = 3 →
        leafOf after root (path ++ vpn :: below) =
          if readEntry pte = .leaf then some (pte, below) else none := by
  have here : InTable pages root cur := ⟨path, short, reaches⟩
  refine ⟨_, writePte_eq (space.inUse here).1 vpn pte, ⟨⟨space.pool.ofContent _, ?_, ?_⟩, rfl,
    ?_, ?_⟩, ?_, ?_, ?_⟩
  · exact space.tree.cut short reaches cut
  · rintro p ⟨other, shorter, isReached⟩
    exact space.inUse ⟨other, shorter, space.tree.follow_of_cut short reaches cut shorter isReached⟩
  · rintro p ⟨other, shorter, isReached⟩
    exact .inl ⟨other, shorter, space.tree.follow_of_cut short reaches cut shorter isReached⟩
  · intro p notIn _
    apply store_place_of_ne
    rintro rfl
    exact notIn here
  · intro paths elsewhere
    exact congrArg Finset.card (space.tree.missing_store short reaches
      (fun other isPath => (elsewhere other isPath).1)
      (fun other isPath => (elsewhere other isPath).2))
  · intro other within elsewhere
    exact space.tree.lookup_store short reaches within elsewhere
  · intro below levels
    rw [leafOf, space.tree.lookup_store_self short reaches]
    cases reading : readEntry pte with
    | absent => rfl
    | leaf => rfl
    | table next =>
      cases below with
      | nil => rfl
      | cons index below =>
        rw [List.length_cons] at levels
        exact absurd reading (cut (by omega) next)

variable [DecidableEq Task]

theorem Pool.newTable (pool : Pool stop live loose pages free) (isLive : ∀ t, ut = some t → live t) :
    YieldsOr (newTable ut) pages (Exhausted free 1) fun p after => ∃ rest,
      free = p :: rest ∧ Pool stop live loose after rest ∧
      after.content = update pages.content p fun _ => 0 := by
  rcases pool with ⟨lists, holds, lives, offs⟩
  cases free with
  | nil =>
    have stops := @Holds.allocPage_nil _ _ _ stop pages lists (fun _ => 0) holds
    refine yieldsOr_of_error ?_ ⟨rfl, Nat.zero_lt_one⟩
    cases ut with
    | none => exact stops
    | some t =>
      simp only [Vm.newTable, Pages.allocPageForTask, stops]
      rfl
  | cons p rest =>
    have notRest : ∀ q, loose q → q ∉ rest := fun q isLoose member =>
      offs q isLoose _ _ holds.isFree (List.mem_cons_of_mem p member)
    cases ut with
    | none =>
      rcases @Holds.allocPage_cons _ _ _ stop pages lists rest (fun _ => 0) p holds with
        ⟨after, ran, holdsAfter, _, _, content⟩
      refine yieldsOr_of_ok ran ⟨rest, rfl, ⟨_, holdsAfter, ?_, ?_⟩, content⟩
      · intro t isLive
        rw [update_of_ne (by rintro ⟨⟩)]
        exact lives t isLive
      · intro q isLoose
        exact (offs q isLoose).update none (notRest q isLoose)
    | some t =>
      rcases Option.isSome_iff_exists.mp (lives t (isLive t rfl)) with ⟨list, isList⟩
      rcases @Holds.allocPageForTask _ _ _ stop pages lists rest list (fun _ => 0) p t holds
          isList with ⟨after, ran, holdsAfter, content⟩
      refine yieldsOr_of_ok ran ⟨rest, rfl, ⟨_, holdsAfter, ?_, ?_⟩, content⟩
      · intro other isLive
        by_cases same : other = t
        · rw [same, update_self]
          rfl
        · rw [update_of_ne fun equal => same (Option.some.inj equal), update_of_ne (by rintro ⟨⟩)]
          exact lives other isLive
      · intro q isLoose
        refine ((offs q isLoose).update none (notRest q isLoose)).update (some t) ?_
        rw [List.mem_append, List.mem_singleton]
        rintro (member | rfl)
        · exact offs q isLoose _ _ isList member
        · exact offs q isLoose _ _ holds.isFree List.mem_cons_self

theorem Pool.newSpace (pool : Pool stop live loose pages free) (isLive : ∀ t, ut = some t → live t) :
    YieldsOr (Vm.newTable ut) pages (Exhausted free 1) fun root after => ∃ rest,
      free = root :: rest ∧ Space stop live loose after rest root ∧
      (∀ path, leafOf after root path = none) ∧
      (∀ p, InTable after root p → p = root) ∧
      ∀ p, p ≠ root → after.content p = pages.content p := by
  refine (pool.newTable isLive).mono ?_ (fun _ => id)
  rintro root after ⟨rest, rfl, poolAfter, content⟩
  have blank : ∀ index, readEntry (after.content root index) = .absent := by
    intro index
    rw [content, update_self]
    rfl
  have onlyRoot : ∀ p, InTable after root p → p = root := by
    rintro p ⟨path, _, reaches⟩
    exact (follow_of_blank blank reaches).2
  refine ⟨rest, rfl, ⟨poolAfter, .of_blank blank 3, ?_⟩, lookup_of_blank blank, onlyRoot, ?_⟩
  · intro p inTable
    rw [onlyRoot p inTable]
    exact ⟨pool.inMemory List.mem_cons_self, (List.nodup_cons.mp pool.nodup).1⟩
  · intro p different
    rw [content, update_of_ne different]

namespace Space

theorem descend (space : Space stop live loose pages free root) (isLive : ∀ t, ut = some t → live t)
    (reaches : Radix.follow readEntry pages.content root path = some cur)
    (above : path.length + 1 < 3) (noLeaf : readEntry (pages.content cur vpn) ≠ .leaf)
    (within : ∀ other ∈ paths, other.length < 3) (isPath : path ++ [vpn] ∈ paths) :
    YieldsOr (descend cur vpn ut) pages (Exhausted free (toMake pages root paths)) fun next after =>
      ∃ used rest, Grows stop live loose root pages after free used rest ∧
        used.length + toMake after root paths ≤ toMake pages root paths ∧
        Radix.follow readEntry after.content root (path ++ [vpn]) = some next ∧
        ∀ other : List Nat, other.length ≤ 3 → leafOf after root other = leafOf pages root other := by
  have here : InTable pages root cur := ⟨path, by omega, reaches⟩
  have inMemory := (space.inUse here).1
  rw [Vm.descend]
  refine yieldsOr_bind_of_ok (readPte_eq inMemory vpn) ?_
  by_cases valid : isValid (pages.content cur vpn) = true
  · rw [if_pos valid]
    have reading := readEntry_of_valid valid noLeaf
    refine yieldsOr_pure ⟨[], free, .refl space, by simp, ?_, fun _ _ => rfl⟩
    rw [follow_append reaches, Radix.follow, reading]
    rfl
  · rw [if_neg valid]
    have absent : readEntry (pages.content cur vpn) = .absent := by
      rw [readEntry, if_neg valid]
    have isMissing : 0 < toMake pages root paths := by
      refine card_pos.mpr ⟨path ++ [vpn], ?_⟩
      rw [mem_missing, follow_append reaches, Radix.follow, absent]
      exact ⟨isPath, rfl⟩
    refine ((space.pool.newTable isLive).mono (fun _ _ => id) ?_).bind ?_
    · rintro fault ⟨isPanic, few⟩
      exact ⟨isPanic, by omega⟩
    rintro p taken ⟨rest, rfl, pool, content⟩
    have pInMemory := space.pool.inMemory (p := p) List.mem_cons_self
    have unreached : ¬ InTable pages root p := fun isReached =>
      (space.inUse isReached).2 List.mem_cons_self
    have leads := readEntry_tablePte pInMemory
    have installed : Radix.store taken.content cur vpn (tablePte p) =
        Radix.install pages.content cur vpn p 0 (tablePte p) := by
      rw [content, Radix.install]
    refine yieldsOr_bind_of_ok (writePte_eq inMemory vpn (tablePte p)) ?_
    rw [tableOf_tablePte pInMemory]
    have tree := install_tree space.tree above reaches unreached absent readEntry_zero leads
    have inTable : ∀ {q}, Radix.Reaches readEntry
        (Radix.install pages.content cur vpn p 0 (tablePte p)) root 3 q →
        InTable pages root q ∨ q = p := by
      rintro q ⟨other, short, isReached⟩
      rw [follow_install space.tree above reaches unreached absent readEntry_zero leads
        short] at isReached
      rcases isReached with before | ⟨_, isNew⟩
      · exact .inl ⟨other, short, before⟩
      · exact .inr isNew
    refine yieldsOr_pure ⟨[p], rest, ⟨⟨pool.ofContent _, ?_, ?_⟩, rfl, ?_, ?_⟩, ?_, ?_, ?_⟩
    all_goals simp only [toMake, installed]
    · exact tree
    · intro q isReached
      have fresh := List.nodup_cons.mp space.pool.nodup
      rcases inTable isReached with before | rfl
      · have wasInUse := space.inUse before
        exact ⟨wasInUse.1, fun isFree => wasInUse.2 (List.mem_cons_of_mem p isFree)⟩
      · exact ⟨pInMemory, fresh.1⟩
    · intro q isReached
      rw [List.mem_singleton]
      exact inTable isReached
    · intro q notIn notUsed
      rw [List.mem_singleton] at notUsed
      have notCur : q ≠ cur := by
        rintro rfl
        exact notIn here
      rw [Radix.install, store_place_of_ne notCur, update_of_ne notUsed]
    · rw [List.length_singleton, Nat.add_comm]
      exact missing_install space.tree above reaches unreached absent readEntry_zero leads
        within isPath
    · exact follow_install_self space.tree above reaches unreached leads
    · intro other within
      exact lookup_install space.tree above reaches unreached absent readEntry_zero leads
        within

end Space

/-- No leaf of a larger page is on the path to the address. -/
def NoLarger (pages : Pages Task Words) (root : Nat) (va : U64) (gra : Granularity) : Prop :=
  ∀ pte below, leafOf pages root (indices va) = some (pte, below) → below.length ≤ gra.level

def leafPath (va : U64) (gra : Granularity) : List Nat := (indices va).take (3 - gra.level)

theorem indices_split (va : U64) {level : Nat} (inTable : level ≤ 2) :
    indices va = (indices va).take (2 - level) ++ vaLevel va level :: (indices va).drop (3 - level) := by
  interval_cases level <;> rfl

theorem take_indices (va : U64) {level : Nat} (inTable : level ≤ 2) :
    (indices va).take (2 - level) ++ [vaLevel va level] = (indices va).take (3 - level) := by
  interval_cases level <;> rfl

theorem length_take_indices (va : U64) {level : Nat} (inTable : level ≤ 2) :
    ((indices va).take (2 - level)).length = 2 - level := by
  interval_cases level <;> rfl

def AboveLeaves (paths : Finset (List Nat)) (gra : Granularity) : Prop :=
  ∀ path ∈ paths, path.length < 3 - gra.level

def OnWay (paths : Finset (List Nat)) (va : U64) (gra : Granularity) : Prop :=
  ∀ length, 0 < length → length < 3 - gra.level → (indices va).take length ∈ paths

/-- The leaf of one page has changed, and those of all other pages are as before. -/
structure MapsOne (pages after : Pages Task Words) (root : Nat) (va : U64) (gra : Granularity)
    (pte : U64) : Prop where
  elsewhere : ∀ other : List Nat, other.length ≤ 3 → ¬ leafPath va gra <+: other →
    leafOf after root other = leafOf pages root other
  here : ∀ below : List Nat, below.length = gra.level →
    leafOf after root (leafPath va gra ++ below) =
      if readEntry pte = .leaf then some (pte, below) else none

omit [DecidableEq Task] in
theorem Space.writeLeaf (space : Space stop live loose pages free root) {va pte : U64}
    {gra : Granularity}
    (reaches : Radix.follow readEntry pages.content root ((indices va).take (2 - gra.level)) =
      some cur) (cut : 0 < gra.level → ∀ next, readEntry pte ≠ .table next) :
    ∃ after : Pages Task Words,
      Vm.writePte cur (vaLevel va gra.level) pte pages = .ok ((), after) ∧
      Grows stop live loose root pages after free [] free ∧ MapsOne pages after root va gra pte ∧
      ∀ paths, AboveLeaves paths gra → toMake after root paths = toMake pages root paths := by
  have inTable : gra.level ≤ 2 := by cases gra <;> decide
  have length := length_take_indices va inTable
  have isPath : (indices va).take (2 - gra.level) ++ [vaLevel va gra.level] = leafPath va gra :=
    take_indices va inTable
  rcases @Space.writePte _ _ _ _ _ _ _ _ (vaLevel va gra.level) _ space reaches (by omega) pte
    (fun above => cut (by omega)) with ⟨after, ran, grows, toMakeSame, elsewhere, here⟩
  refine ⟨after, ran, grows, ⟨?_, ?_⟩, ?_⟩
  · rwa [isPath] at elsewhere
  · intro below levels
    have stored := here below (by omega)
    rwa [← List.singleton_append, ← List.append_assoc, isPath] at stored
  · intro paths above
    refine toMakeSame paths fun other isOther => ⟨?_, ?_⟩
    · exact Nat.le_trans (above other isOther).le (Nat.sub_le 3 _)
    · intro isPrefix
      have longer := isPrefix.length_le
      rw [List.length_append, length, List.length_singleton] at longer
      have shorter := above other isOther
      omega

omit [DecidableEq Task] in
theorem NoLarger.not_leaf {va : U64} {gra : Granularity} (noLarger : NoLarger pages root va gra)
    {level : Nat} (inTable : level ≤ 2) (above : gra.level < level)
    (reaches : Radix.follow readEntry pages.content root ((indices va).take (2 - level)) =
      some cur) : readEntry (pages.content cur (vaLevel va level)) ≠ .leaf := by
  intro isLeaf
  have found : leafOf pages root (indices va) =
      some (pages.content cur (vaLevel va level), (indices va).drop (3 - level)) := by
    rw [indices_split va inTable, leafOf, lookup_append reaches, Radix.lookup, isLeaf,
      ← indices_split va inTable]
  have bound := noLarger _ _ found
  have length : ((indices va).drop (3 - level)).length = level := by
    rw [List.length_drop]
    simp only [indices, List.length_cons, List.length_nil]
    omega
  omega

theorem Space.mapFrom {va pa : U64} {attr : BitVec 16} {gra : Granularity}
    (isLive : ∀ t, ut = some t → live t)
    (cut : 0 < gra.level → ∀ next, readEntry (leafPte pa attr) ≠ .table next)
    (above : AboveLeaves paths gra) (onWay : OnWay paths va gra) (level : Nat) :
    ∀ {cur : Nat} {pages : Pages Task Words} {free : List Nat}, level ≤ 2 → gra.level ≤ level →
      Space stop live loose pages free root →
      Radix.follow readEntry pages.content root ((indices va).take (2 - level)) = some cur →
      NoLarger pages root va gra →
      YieldsOr (mapFrom va pa attr gra ut level cur) pages
        (Exhausted free (toMake pages root paths)) fun _ after =>
          ∃ used rest, Grows stop live loose root pages after free used rest ∧
            used.length + toMake after root paths ≤ toMake pages root paths ∧
            MapsOne pages after root va gra (leafPte pa attr) := by
  induction level with
  | zero =>
    intro cur pages free _ atMost space reaches _
    have isLevel : gra.level = 0 := by omega
    rw [Vm.mapFrom, if_pos isLevel]
    rw [← isLevel] at reaches ⊢
    rcases space.writeLeaf reaches cut with ⟨after, ran, grows, maps, same⟩
    exact yieldsOr_of_ok ran ⟨[], free, grows, by simp [same paths above], maps⟩
  | succ level induction =>
    intro cur pages free inTable atMost space reaches noLarger
    rw [Vm.mapFrom]
    by_cases isLevel : gra.level = level + 1
    · rw [if_pos isLevel]
      rw [← isLevel] at reaches ⊢
      rcases space.writeLeaf reaches cut with ⟨after, ran, grows, maps, same⟩
      exact yieldsOr_of_ok ran ⟨[], free, grows, by simp [same paths above], maps⟩
    · rw [if_neg isLevel]
      have noLeaf := noLarger.not_leaf inTable (by omega) reaches
      have length := length_take_indices va inTable
      have within : ∀ other ∈ paths, other.length < 3 := fun other isOther =>
        Nat.lt_of_lt_of_le (above other isOther) (Nat.sub_le 3 _)
      have isPath : (indices va).take (2 - (level + 1)) ++ [vaLevel va (level + 1)] ∈ paths := by
        rw [take_indices va inTable]
        exact onWay _ (by omega) (by omega)
      refine (space.descend isLive reaches (by omega) noLeaf within isPath).bind ?_
      rintro next after ⟨used, rest, grows, few, reachesNext, same⟩
      rw [take_indices va inTable] at reachesNext
      have stillNoLarger : NoLarger after root va gra := by
        intro pte below found
        rw [same (indices va) (Nat.le_refl 3)] at found
        exact noLarger pte below found
      rw [show 3 - (level + 1) = 2 - level by omega] at reachesNext
      have continues := induction (by omega) (by omega) grows.space reachesNext stillNoLarger
      refine continues.mono ?_ ?_
      · rintro _ final ⟨used', rest', grows', few', maps⟩
        refine ⟨used ++ used', rest', grows.trans grows', ?_, ?_, maps.here⟩
        · rw [List.length_append]
          omega
        · intro other within elsewhere
          rw [maps.elsewhere other within elsewhere, same other within]
      · rintro fault ⟨isPanic, fewer⟩
        refine ⟨isPanic, ?_⟩
        rw [grows.free_eq, List.length_append]
        omega

omit [DecidableEq Task] in
theorem Space.unmapFrom {va : U64} (level : Nat) : ∀ {cur : Nat}, level ≤ 2 →
    Space stop live loose pages free root →
    Radix.follow readEntry pages.content root ((indices va).take (2 - level)) = some cur →
    NoLarger pages root va .S_PAGE →
    ∃ after : Pages Task Words, unmapFrom va level cur pages = .ok ((), after) ∧
      Grows stop live loose root pages after free [] free ∧
      (∀ other : List Nat, other.length ≤ 3 → other ≠ indices va →
        leafOf after root other = leafOf pages root other) ∧
      leafOf after root (indices va) = none := by
  induction level with
  | zero =>
    intro cur _ space reaches _
    have length := length_take_indices va (Nat.zero_le 2)
    have here : InTable pages root cur := ⟨_, by omega, reaches⟩
    have read := @readPte_eq _ pages _ (space.inUse here).1 (vaLevel va 0)
    rw [Vm.unmapFrom, bind_eq, read]
    by_cases valid : isValid (pages.content cur (vaLevel va 0)) = true
    · have notTable : ∀ next, readEntry 0 ≠ .table next := by
        rintro next ⟨⟩
      rcases @Space.writeLeaf _ _ _ _ _ _ _ _ space va 0 .S_PAGE reaches
        (fun _ => notTable) with ⟨after, ran, grows, maps, _⟩
      refine ⟨after, ?_, grows, ?_, ?_⟩
      · simp only [if_pos valid]
        exact ran
      · intro other within different
        refine maps.elsewhere other within ?_
        intro isPrefix
        exact different (isPrefix.eq_of_length_le within).symm
      · exact maps.here [] rfl
    · refine ⟨pages, ?_, .refl space, fun _ _ _ => rfl, ?_⟩
      · simp only [if_neg valid]
        rfl
      · have absent : readEntry (pages.content cur (vaLevel va 0)) = .absent := by
          rw [readEntry, if_neg valid]
        rw [indices_split va (Nat.zero_le 2), leafOf, lookup_append reaches, Radix.lookup, absent]
  | succ level induction =>
    intro cur inTable space reaches noLarger
    have length := length_take_indices va inTable
    have here : InTable pages root cur := ⟨_, by omega, reaches⟩
    have read := @readPte_eq _ pages _ (space.inUse here).1 (vaLevel va (level + 1))
    rw [Vm.unmapFrom, bind_eq, read]
    by_cases valid : isValid (pages.content cur (vaLevel va (level + 1))) = true
    · have notLeaf := noLarger.not_leaf inTable (Nat.succ_pos level) reaches
      have reading := readEntry_of_valid valid notLeaf
      have reachesNext : Radix.follow readEntry pages.content root
          ((indices va).take (2 - level)) = some (tableOf (pages.content cur
            (vaLevel va (level + 1)))) := by
        rw [show 2 - level = 3 - (level + 1) by omega, ← take_indices va inTable,
          follow_append reaches, Radix.follow, reading]
        rfl
      simp only [if_pos valid]
      exact induction (by omega) space reachesNext noLarger
    · refine ⟨pages, ?_, .refl space, fun _ _ _ => rfl, ?_⟩
      · simp only [if_neg valid]
        rfl
      · have absent : readEntry (pages.content cur (vaLevel va (level + 1))) = .absent := by
          rw [readEntry, if_neg valid]
        rw [indices_split va inTable, leafOf, lookup_append reaches, Radix.lookup, absent]

end

/-! ## A range of addresses -/

section
variable {root : Nat} {va pa bound : U64} {attr : BitVec 16} {gra : Granularity}
  {paths : Finset (List Nat)}

theorem Granularity.delta_eq (gra : Granularity) : gra.delta = PGSIZE * 512 ^ gra.level := by
  cases gra <;> rfl

theorem Granularity.delta_cases (gra : Granularity) :
    gra.delta = 4096 ∨ gra.delta = 2097152 ∨ gra.delta = 1073741824 := by
  cases gra
  · exact .inl rfl
  · exact .inr (.inl rfl)
  · exact .inr (.inr rfl)

theorem Granularity.delta_pos (gra : Granularity) : 0 < gra.delta := by
  rcases gra.delta_cases with is | is | is <;> omega

/-- The entry for an address of a range that starts at `va` and is mapped to `pa`. -/
def rangePte (va pa : U64) (attr : BitVec 16) (gra : Granularity) (x : U64) : U64 :=
  leafPte (pa + BitVec.ofNat 64 ((x.toNat - va.toNat) / gra.delta * gra.delta)) attr

/-- What a walk to an address finds after an entry has been stored for its page. -/
def leafFor (pte : U64) (gra : Granularity) (x : U64) : Option (U64 × List Nat) :=
  if readEntry pte = .leaf then some (pte, (indices x).drop (3 - gra.level)) else none

def InRange (va bound x : U64) : Prop := va.toNat ≤ x.toNat ∧ x.toNat < bound.toNat

instance (va bound x : U64) : Decidable (InRange va bound x) := inferInstanceAs (Decidable (_ ∧ _))

theorem InRange.walkable {x : U64} (isIn : InRange va bound x) (boundInRange : bound.toNat ≤ VA_TOP) :
    x.toNat < 2 ^ 39 :=
  Nat.lt_trans (Nat.lt_of_lt_of_le isIn.2 boundInRange) (by decide)

theorem toNat_next (inRange : va.toNat < VA_TOP) (gra : Granularity) :
    (va + BitVec.ofNat 64 gra.delta).toNat = va.toNat + gra.delta := by
  rw [BitVec.toNat_add, BitVec.toNat_ofNat]
  simp only [VA_TOP] at inRange
  rcases gra.delta_cases with is | is | is <;> rw [is] <;> omega

theorem leafPath_prefix_iff (aligned : va.toNat % gra.delta = 0) (inRange : va.toNat < VA_TOP)
    {x : U64} (xInRange : x.toNat < 2 ^ 39) :
    leafPath va gra <+: indices x ↔ va.toNat ≤ x.toNat ∧ x.toNat < va.toNat + gra.delta := by
  have path : leafPath va gra <+: indices x ↔ leafPath va gra = leafPath x gra := by
    cases gra <;>
      simp [leafPath, indices, Granularity.level, List.cons_prefix_cons]
  rw [path]
  simp only [VA_TOP] at inRange xInRange
  cases gra with
  | S_PAGE =>
    rw [show Granularity.S_PAGE.delta = 4096 from rfl] at *
    simp only [leafPath, indices, Granularity.level, List.take_succ_cons, List.take_zero,
      Nat.reduceSub, vaLevel_eq, List.cons.injEq, and_true, PGSIZE]
    omega
  | M_PAGE =>
    rw [show Granularity.M_PAGE.delta = 2097152 from rfl] at *
    simp only [leafPath, indices, Granularity.level, List.take_succ_cons, List.take_zero,
      Nat.reduceSub, vaLevel_eq, List.cons.injEq, and_true, PGSIZE]
    omega
  | G_PAGE =>
    rw [show Granularity.G_PAGE.delta = 1073741824 from rfl] at *
    simp only [leafPath, indices, Granularity.level, List.take_succ_cons, List.take_zero,
      Nat.reduceSub, vaLevel_eq, List.cons.injEq, and_true, PGSIZE]
    omega

theorem MapsOne.at {pages after : Pages Task Words} {pte : U64}
    (maps : MapsOne pages after root va gra pte) (aligned : va.toNat % gra.delta = 0)
    (inRange : va.toNat < VA_TOP) {x : U64} (xInRange : x.toNat < 2 ^ 39) :
    leafOf after root (indices x) =
      if va.toNat ≤ x.toNat ∧ x.toNat < va.toNat + gra.delta then leafFor pte gra x
      else leafOf pages root (indices x) := by
  have through := leafPath_prefix_iff aligned inRange xInRange
  by_cases here : va.toNat ≤ x.toNat ∧ x.toNat < va.toNat + gra.delta
  · rw [if_pos here]
    rcases through.mpr here with ⟨below, path⟩
    have isBelow : below = (indices x).drop (3 - gra.level) := by
      rw [← path]
      cases gra <;> rfl
    have length : below.length = gra.level := by
      rw [isBelow]
      cases gra <;> rfl
    rw [leafFor, ← isBelow, ← path]
    exact maps.here below length
  · rw [if_neg here]
    exact maps.elsewhere _ (Nat.le_refl 3) fun isPrefix => here (through.mp isPrefix)

theorem rangePte_next {x : U64} (inRange : va.toNat < VA_TOP)
    (later : va.toNat + gra.delta ≤ x.toNat) :
    rangePte (va + BitVec.ofNat 64 gra.delta) (pa + BitVec.ofNat 64 gra.delta) attr gra x =
      rangePte va pa attr gra x := by
  have positive := gra.delta_pos
  have split : x.toNat - va.toNat = x.toNat - (va.toNat + gra.delta) + gra.delta := by omega
  rw [rangePte, rangePte, toNat_next inRange, BitVec.add_assoc, ← BitVec.ofNat_add, split,
    Nat.add_div_right _ positive, Nat.succ_mul, Nat.add_comm gra.delta]

theorem rangePte_first {x : U64} (inside : x.toNat < va.toNat + gra.delta) :
    rangePte va pa attr gra x = leafPte pa attr := by
  have positive := gra.delta_pos
  rw [rangePte, Nat.div_eq_of_lt (by omega), Nat.zero_mul]
  exact congrArg (leafPte · attr) (BitVec.add_zero pa)

def turns (va bound : U64) (gra : Granularity) : Nat := (bound.toNat - va.toNat) / gra.delta

theorem range_step (aligned : va.toNat % gra.delta = 0) (boundAligned : bound.toNat % gra.delta = 0)
    (boundInRange : bound.toNat ≤ VA_TOP) (inside : va.toNat < bound.toNat) :
    (va + BitVec.ofNat 64 gra.delta).toNat % gra.delta = 0 ∧
      va.toNat + gra.delta ≤ bound.toNat ∧
      turns va bound gra = turns (va + BitVec.ofNat 64 gra.delta) bound gra + 1 := by
  have next := toNat_next (Nat.lt_of_lt_of_le inside boundInRange) gra
  have step : va.toNat + gra.delta ≤ bound.toNat := by
    rcases gra.delta_cases with is | is | is <;> rw [is] at aligned boundAligned ⊢ <;> omega
  refine ⟨by rw [next, Nat.add_mod_right, aligned], step, ?_⟩
  rw [turns, turns, next, ← Nat.add_div_right _ gra.delta_pos]
  congr 1
  omega

theorem Space.unmapRangeFrom (boundAligned : bound.toNat % PGSIZE = 0)
    (boundInRange : bound.toNat ≤ VA_TOP) (fuel : Nat) :
    ∀ {va : U64} {pages : Pages Task Words}, va.toNat % PGSIZE = 0 →
      turns va bound .S_PAGE < fuel → Space stop live loose pages free root →
      (∀ x, InRange va bound x → NoLarger pages root x .S_PAGE) →
      ∃ after : Pages Task Words, unmapRangeFrom root bound fuel va pages = .ok ((), after) ∧
        Grows stop live loose root pages after free [] free ∧
        ∀ x : U64, x.toNat < 2 ^ 39 → leafOf after root (indices x) =
          if InRange va bound x then none else leafOf pages root (indices x) := by
  induction fuel with
  | zero =>
    intro va pages _ enough
    exact absurd enough (Nat.not_lt_zero _)
  | succ fuel induction =>
    intro va pages aligned enough space noLarger
    rw [Vm.unmapRangeFrom]
    by_cases inside : va < bound
    · have below : va.toNat < bound.toNat := inside
      have inRange : va.toNat < VA_TOP := by omega
      have next : (va + BitVec.ofNat 64 PGSIZE).toNat = va.toNat + PGSIZE :=
        toNat_next inRange .S_PAGE
      rcases @range_step va bound .S_PAGE aligned boundAligned boundInRange below with
        ⟨nextAligned, step, count⟩
      rw [show Granularity.S_PAGE.delta = PGSIZE from rfl] at nextAligned step count
      rcases Space.unmapFrom 2 (Nat.le_refl 2) space rfl (noLarger va ⟨Nat.le_refl _, below⟩) with
        ⟨after, ran, grows, elsewhere, here⟩
      have isHere : ∀ x : U64, x.toNat < 2 ^ 39 → leafOf after root (indices x) =
          if va.toNat ≤ x.toNat ∧ x.toNat < va.toNat + PGSIZE then none
          else leafOf pages root (indices x) := by
        intro x xInRange
        have same : indices x = indices va ↔ va.toNat ≤ x.toNat ∧ x.toNat < va.toNat + PGSIZE := by
          rw [indices_inj xInRange (Nat.lt_trans inRange (by decide))]
          simp only [PGSIZE] at aligned ⊢
          omega
        by_cases isPage : indices x = indices va
        · rw [if_pos (same.mp isPage), isPage, here]
        · rw [if_neg (fun isIn => isPage (same.mpr isIn)), elsewhere (indices x) (Nat.le_refl 3) isPage]
      have stillNoLarger : ∀ x, InRange (va + BitVec.ofNat 64 PGSIZE) bound x →
          NoLarger after root x .S_PAGE := by
        intro x isIn pte belowPath found
        have walkable := isIn.walkable boundInRange
        rw [InRange, next] at isIn
        rw [isHere x walkable, if_neg (by omega)] at found
        exact noLarger x ⟨by omega, isIn.2⟩ pte belowPath found
      rw [count] at enough
      rcases induction nextAligned (Nat.lt_of_succ_lt_succ enough) grows.space stillNoLarger with
        ⟨final, ranOn, growsOn, leaves⟩
      refine ⟨final, ?_, grows.trans growsOn, ?_⟩
      · rw [if_pos inside, bind_eq, ran]
        exact ranOn
      · intro x xInRange
        rw [leaves x xInRange, isHere x xInRange]
        simp only [InRange, next]
        by_cases later : va.toNat + PGSIZE ≤ x.toNat
        · have notHere : ¬ (va.toNat ≤ x.toNat ∧ x.toNat < va.toNat + PGSIZE) := by omega
          rw [if_neg notHere]
          exact if_congr (by omega) rfl rfl
        · rw [if_neg (fun isIn => later isIn.1)]
          exact if_congr (by omega) rfl rfl
    · rw [if_neg inside]
      have above : ¬ va.toNat < bound.toNat := inside
      refine ⟨pages, rfl, .refl space, ?_⟩
      intro x _
      rw [if_neg]
      rintro ⟨after, before⟩
      omega

theorem toNat_add_of_le {size : U64} {top : Nat} (below : va.toNat + size.toNat ≤ top)
    (small : top < 2 ^ 64) : (va + size).toNat = va.toNat + size.toNat := by
  rw [BitVec.toNat_add]
  exact Nat.mod_eq_of_lt (by omega)

theorem turns_lt (va bound : U64) (gra : Granularity) :
    turns va bound gra < bound.toNat / PGSIZE + 1 := by
  rw [turns, Nat.lt_succ_iff]
  calc (bound.toNat - va.toNat) / gra.delta
      ≤ bound.toNat / gra.delta := Nat.div_le_div_right (Nat.sub_le _ _)
    _ ≤ bound.toNat / PGSIZE := by
      refine Nat.div_le_div_left ?_ (by decide)
      rw [gra.delta_eq]
      exact Nat.le_mul_of_pos_right _ (Nat.pow_pos (by decide))

variable [DecidableEq Task]

theorem Space.mapRangeFrom (isLive : ∀ t, ut = some t → live t) (cut : 0 < gra.level → Permits attr)
    (above : AboveLeaves paths gra)
    (boundAligned : bound.toNat % gra.delta = 0) (boundInRange : bound.toNat ≤ VA_TOP)
    (fuel : Nat) :
    ∀ {va pa : U64} {pages : Pages Task Words} {free : List Nat}, va.toNat % gra.delta = 0 →
      turns va bound gra < fuel → Space stop live loose pages free root →
      (∀ x, InRange va bound x → NoLarger pages root x gra ∧ OnWay paths x gra) →
      YieldsOr (mapRangeFrom root bound attr gra ut fuel va pa) pages
        (Exhausted free (toMake pages root paths)) fun _ after =>
          ∃ used rest, Grows stop live loose root pages after free used rest ∧
            used.length + toMake after root paths ≤ toMake pages root paths ∧
            ∀ x : U64, x.toNat < 2 ^ 39 → leafOf after root (indices x) =
              if InRange va bound x then leafFor (rangePte va pa attr gra x) gra x
              else leafOf pages root (indices x) := by
  induction fuel with
  | zero =>
    intro va pa pages free _ enough
    exact absurd enough (Nat.not_lt_zero _)
  | succ fuel induction =>
    intro va pa pages free aligned enough space noLarger
    rw [Vm.mapRangeFrom]
    by_cases inside : va < bound
    · have below : va.toNat < bound.toNat := inside
      have inRange : va.toNat < VA_TOP := by omega
      have next := toNat_next inRange gra
      rcases range_step aligned boundAligned boundInRange below with ⟨nextAligned, step, count⟩
      have cutHere : 0 < gra.level → ∀ next, readEntry (leafPte pa attr) ≠ .table next := by
        intro positive table
        rw [readEntry_leafPte pa (cut positive)]
        rintro ⟨⟩
      have levels : gra.level ≤ 2 := by cases gra <;> decide
      have here := noLarger va ⟨Nat.le_refl _, below⟩
      rw [if_pos inside]
      refine (Space.mapFrom isLive cutHere above here.2 2 (Nat.le_refl 2) levels space rfl
        here.1).bind ?_
      · rintro _ after ⟨used, rest, grows, few, maps⟩
        have stillNoLarger : ∀ x, InRange (va + BitVec.ofNat 64 gra.delta) bound x →
            NoLarger after root x gra ∧ OnWay paths x gra := by
          intro x isIn
          have walkable := isIn.walkable boundInRange
          rw [InRange, next] at isIn
          have before := noLarger x ⟨by omega, isIn.2⟩
          refine ⟨?_, before.2⟩
          intro pte belowPath found
          rw [maps.at aligned inRange walkable, if_neg (by omega)] at found
          exact before.1 pte belowPath found
        refine (induction nextAligned (by omega) grows.space stillNoLarger).mono ?_ ?_
        · rintro _ final ⟨used', rest', grows', few', leaves⟩
          refine ⟨used ++ used', rest', grows.trans grows', ?_, ?_⟩
          · rw [List.length_append]
            omega
          · intro x xInRange
            rw [leaves x xInRange, maps.at aligned inRange xInRange]
            simp only [InRange, next]
            by_cases later : va.toNat + gra.delta ≤ x.toNat
            · have notHere : ¬ (va.toNat ≤ x.toNat ∧ x.toNat < va.toNat + gra.delta) := by omega
              rw [rangePte_next inRange later, if_neg notHere]
              exact if_congr (by omega) rfl rfl
            · rw [if_neg (fun isIn => later isIn.1), rangePte_first (by omega)]
              exact if_congr (by omega) rfl rfl
        · rintro fault ⟨isPanic, fewer⟩
          refine ⟨isPanic, ?_⟩
          rw [grows.free_eq, List.length_append]
          omega
    · rw [if_neg inside]
      have above : ¬ va.toNat < bound.toNat := inside
      refine yieldsOr_pure ⟨[], free, .refl space, by simp, ?_⟩
      intro x _
      rw [if_neg]
      rintro ⟨after, before⟩
      omega

def rangeEnd (va size : U64) (gra : Granularity) : U64 :=
  BitVec.ofNat 64 (alignUp (va + size).toNat gra.delta)

theorem toNat_rangeEnd {size : U64} (below : va.toNat + size.toNat ≤ VA_TOP) (gra : Granularity) :
    (rangeEnd va size gra).toNat = alignUp (va.toNat + size.toNat) gra.delta ∧
      (rangeEnd va size gra).toNat % gra.delta = 0 ∧ (rangeEnd va size gra).toNat ≤ VA_TOP := by
  have top : VA_TOP % gra.delta = 0 := by cases gra <;> rfl
  have inRange := alignUp_le gra.delta_pos below top
  have value : (rangeEnd va size gra).toNat = alignUp (va.toNat + size.toNat) gra.delta := by
    rw [rangeEnd, toNat_add_of_le below (by decide), BitVec.toNat_ofNat]
    exact Nat.mod_eq_of_lt (Nat.lt_of_le_of_lt inRange (by decide))
  refine ⟨value, ?_, value ▸ inRange⟩
  rw [value, alignUp_mod]

theorem Granularity.mod_of_mod_delta (gra : Granularity) {x : Nat} (aligned : x % gra.delta = 0) :
    x % PGSIZE = 0 := by
  refine Nat.mod_eq_zero_of_dvd (Nat.dvd_trans ?_ (Nat.dvd_of_mod_eq_zero aligned))
  rw [gra.delta_eq]
  exact Nat.dvd_mul_right _ _

theorem doVmmap_eq {size : U64} (aligned : va.toNat % PGSIZE = 0)
    (paAligned : pa.toNat % PGSIZE = 0) (below : va.toNat + size.toNat ≤ VA_TOP)
    (paBelow : pa.toNat + size.toNat ≤ PHY_TOP) :
    doVmmap root va pa size attr gra ut = mapRangeFrom root (rangeEnd va size gra) attr gra ut
      ((rangeEnd va size gra).toNat / PGSIZE + 1) va pa := by
  rw [Vm.doVmmap, if_neg (by simp [aligned, paAligned]),
    toNat_add_of_le below (by decide), toNat_add_of_le paBelow (by decide), if_neg (by omega),
    ← toNat_add_of_le below (by decide)]
  rfl

def wayTo (va : U64) (length i : Nat) : List Nat :=
  (indices (va + BitVec.ofNat 64 (i * PGSIZE))).take length

/-- The tables that small pages need, two for each page at most. -/
def ways (va : U64) (count : Nat) : Finset (List Nat) :=
  (Finset.range count).image (wayTo va 1) ∪ (Finset.range count).image (wayTo va 2)

theorem card_ways_le (va : U64) (count : Nat) : (ways va count).card ≤ 2 * count := by
  have image : ∀ length, ((Finset.range count).image (wayTo va length)).card ≤ count := by
    intro length
    calc ((Finset.range count).image (wayTo va length)).card
        ≤ (Finset.range count).card := card_image_le
      _ = count := card_range count
  calc (ways va count).card
      ≤ ((Finset.range count).image (wayTo va 1)).card +
          ((Finset.range count).image (wayTo va 2)).card := card_union_le _ _
    _ ≤ 2 * count := by
      have first := image 1
      have second := image 2
      omega

theorem aboveLeaves_ways (va : U64) (count : Nat) : AboveLeaves (ways va count) .S_PAGE := by
  intro path isPath
  rw [ways, mem_union, mem_image, mem_image] at isPath
  rcases isPath with ⟨i, _, rfl⟩ | ⟨i, _, rfl⟩
  · exact show 1 < 3 by decide
  · exact show 2 < 3 by decide

theorem onWay_ways {x : U64} (aligned : va.toNat % PGSIZE = 0) (boundInRange : bound.toNat ≤ VA_TOP)
    (boundAligned : bound.toNat % PGSIZE = 0) (isIn : InRange va bound x) :
    OnWay (ways va (turns va bound .S_PAGE)) x .S_PAGE := by
  have walkable := isIn.walkable boundInRange
  rcases isIn with ⟨after, before⟩
  have turn : (x.toNat - va.toNat) / PGSIZE < turns va bound .S_PAGE := by
    rw [turns, show Granularity.S_PAGE.delta = PGSIZE from rfl]
    simp only [PGSIZE] at aligned boundAligned ⊢
    omega
  have page : (va + BitVec.ofNat 64 ((x.toNat - va.toNat) / PGSIZE * PGSIZE)).toNat =
      va.toNat + (x.toNat - va.toNat) / PGSIZE * PGSIZE := by
    rw [BitVec.toNat_add, BitVec.toNat_ofNat, Nat.add_mod_mod]
    refine Nat.mod_eq_of_lt ?_
    have rounded := Nat.div_mul_le_self (x.toNat - va.toNat) PGSIZE
    omega
  have same : indices x =
      indices (va + BitVec.ofNat 64 ((x.toNat - va.toNat) / PGSIZE * PGSIZE)) := by
    have rounded := Nat.div_mul_le_self (x.toNat - va.toNat) PGSIZE
    rw [indices_inj walkable (by rw [page]; omega), page]
    simp only [PGSIZE] at aligned ⊢
    omega
  have isWay : ∀ length, (indices x).take length ∈
      (Finset.range (turns va bound .S_PAGE)).image (wayTo va length) := by
    intro length
    rw [same]
    exact mem_image_of_mem _ (mem_range.mpr turn)
  intro length positive short
  rw [ways, mem_union]
  have two : length = 1 ∨ length = 2 := by
    rw [show Granularity.S_PAGE.level = 0 from rfl] at short
    omega
  rcases two with rfl | rfl
  · exact .inl (isWay 1)
  · exact .inr (isWay 2)

theorem Space.svmmap {size : U64} (space : Space stop live loose pages free root)
    (isLive : ∀ t, ut = some t → live t) (aligned : va.toNat % PGSIZE = 0)
    (paAligned : pa.toNat % PGSIZE = 0) (below : va.toNat + size.toNat ≤ VA_TOP)
    (paBelow : pa.toNat + size.toNat ≤ PHY_TOP)
    (noLarger : ∀ x, InRange va (rangeEnd va size .S_PAGE) x → NoLarger pages root x .S_PAGE) :
    YieldsOr (svmmap root va pa size attr ut) pages
      (Exhausted free (2 * turns va (rangeEnd va size .S_PAGE) .S_PAGE)) fun _ after =>
        ∃ used rest, Grows stop live loose root pages after free used rest ∧
          used.length ≤ 2 * turns va (rangeEnd va size .S_PAGE) .S_PAGE ∧
          ∀ x : U64, x.toNat < 2 ^ 39 → leafOf after root (indices x) =
            if InRange va (rangeEnd va size .S_PAGE) x then
              leafFor (rangePte va pa attr .S_PAGE x) .S_PAGE x
            else leafOf pages root (indices x) := by
  rcases toNat_rangeEnd below .S_PAGE with ⟨_, endAligned, endBelow⟩
  have few : toMake pages root (ways va (turns va (rangeEnd va size .S_PAGE) .S_PAGE)) ≤
      2 * turns va (rangeEnd va size .S_PAGE) .S_PAGE :=
    Nat.le_trans (card_filter_le _ _) (card_ways_le va _)
  have maps := @Space.mapRangeFrom _ stop live loose ut root (rangeEnd va size .S_PAGE) attr .S_PAGE
    (ways va (turns va (rangeEnd va size .S_PAGE) .S_PAGE)) _ isLive
    (fun positive => absurd positive (by decide)) (aboveLeaves_ways va _) endAligned endBelow _
    va pa pages free aligned (turns_lt _ _ _) space
    (fun x isIn => ⟨noLarger x isIn, onWay_ways aligned endBelow endAligned isIn⟩)
  rw [Vm.svmmap, doVmmap_eq aligned paAligned below paBelow]
  refine maps.mono ?_ ?_
  · rintro _ after ⟨used, rest, grows, fewUsed, leaves⟩
    exact ⟨used, rest, grows, by omega, leaves⟩
  · rintro fault ⟨isPanic, fewFree⟩
    exact ⟨isPanic, by omega⟩

omit [DecidableEq Task] in
theorem Space.vmunmap {size : U64} (space : Space stop live loose pages free root)
    (aligned : va.toNat % PGSIZE = 0) (below : va.toNat + size.toNat ≤ VA_TOP)
    (noLarger : ∀ x, InRange va (rangeEnd va size .S_PAGE) x → NoLarger pages root x .S_PAGE) :
    ∃ after : Pages Task Words, vmunmap root va size pages = .ok ((), after) ∧
      Grows stop live loose root pages after free [] free ∧
      ∀ x : U64, x.toNat < 2 ^ 39 → leafOf after root (indices x) =
        if InRange va (rangeEnd va size .S_PAGE) x then none
        else leafOf pages root (indices x) := by
  rcases toNat_rangeEnd below .S_PAGE with ⟨_, endAligned, endBelow⟩
  rw [Vm.vmunmap, if_neg (by simp [aligned]), toNat_add_of_le below (by decide),
    if_neg (by omega), ← toNat_add_of_le below (by decide)]
  exact Space.unmapRangeFrom endAligned endBelow _ aligned (turns_lt _ _ _) space noLarger

end
end Tnix.Vm
