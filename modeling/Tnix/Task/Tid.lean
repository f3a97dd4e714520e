import Tnix.Config
import Tnix.Foundation.BitField
import Tnix.Foundation.Machine

/-! # Task ids

`tidmap` of `task.c` is a bitmap of two words. `alloc_tid` and `free_tid` compute
the id, the word and the bit with `sizeof(u32)` where the number of bits of a word
is meant. -/

namespace Tnix.Task

open List BitVec

def sizeofU32 : Nat := 4

def tidmapWords : Nat := 1 + NPROC / sizeofU32 / 8

abbrev TidMap := List (BitVec 32)

namespace TidMap

def zero : TidMap := List.replicate tidmapWords 0

def setBit (tidmap : TidMap) (index bit : Nat) : TidMap :=
  tidmap.modify index (· ||| 1#32 <<< bit)

/-- `none` stands for an access outside the array. -/
def freeTid (tidmap : TidMap) (tid : Nat) : Option TidMap :=
  if (tid - 1) / sizeofU32 < tidmap.length then
    some (tidmap.modify ((tid - 1) / sizeofU32)
      (· &&& ~~~(1#32 <<< ((tid - 1) % sizeofU32))))
  else none

/-- The word and the bit `alloc_tid` takes; past the last word when all are full. -/
def findClear (tidmap : TidMap) : Option (Nat × Nat) := do
  let index := tidmap.findIdx (· != BitVec.allOnes 32)
  let word ← tidmap[index]?
  let bit ← (List.range 32).find? fun bit => word &&& 1#32 <<< bit == 0#32
  return (index, bit)

def tidAt (place : Nat × Nat) : Nat := place.1 * sizeofU32 + place.2 + 1

def allocTid (tidmap : TidMap) : Option (Nat × TidMap) :=
  tidmap.findClear.map fun place => (tidAt place, tidmap.setBit place.1 place.2)

/-- The map when exactly these bits have been taken. -/
def ofPlaces (places : List (Nat × Nat)) : TidMap :=
  places.foldr (fun place tidmap => tidmap.setBit place.1 place.2) zero

end TidMap

/-! ## Runs of calls -/

/-- The live ids are kept with the word and the bit that `alloc_tid` took for each. -/
structure Tids where
  tidmap : TidMap
  live : List (Nat × Nat × Nat)
  deriving DecidableEq

namespace Tids

inductive Call where
  | alloc
  | free (tid : Nat)
  deriving DecidableEq

def ids (tids : Tids) : List Nat := tids.live.map Prod.fst

def places (tids : Tids) : List (Nat × Nat) := tids.live.map Prod.snd

/-- At most `NPROC` ids are live, and only a live id is freed. -/
def Enabled (tids : Tids) : Call → Prop
  | .alloc => tids.live.length < NPROC
  | .free tid => tid ∈ tids.ids

instance (tids : Tids) : ∀ call, Decidable (tids.Enabled call)
  | .alloc => inferInstanceAs (Decidable (_ < _))
  | .free _ => inferInstanceAs (Decidable (_ ∈ _))

def perform (tids : Tids) : Call → Option Tids
  | .alloc => do
    let place ← tids.tidmap.findClear
    let (tid, tidmap) ← tids.tidmap.allocTid
    return { tidmap, live := (tid, place) :: tids.live }
  | .free tid => do
    let tidmap ← tids.tidmap.freeTid tid
    return { tidmap, live := tids.live.eraseP (·.1 == tid) }

def start : Tids := { tidmap := .zero, live := [] }

def machine : Machine Tids Call where
  Initial tids := tids = start
  step tids call := if tids.Enabled call then tids.perform call else none

/-- Ids are unique, no access leaves the array, and the map is the one that the
allocations of the live ids alone make. -/
structure Exact (Allowed : Tids → Call → Prop) (tids : Tids) : Prop where
  fresh : tids.Enabled .alloc → ∀ tid tidmap, tids.tidmap.allocTid = some (tid, tidmap) →
    tid ∉ tids.ids
  inRange : ∀ call, tids.Enabled call → Allowed tids call → tids.perform call ≠ none
  tidmap : tids.tidmap = .ofPlaces tids.places

/-- Only the ids whose bit `free_tid` computes as `alloc_tid` does are freed. -/
def FreesLow (_ : Tids) : Call → Prop
  | .alloc => True
  | .free tid => tid ≤ sizeofU32

instance (tids : Tids) : ∀ call, Decidable (FreesLow tids call)
  | .alloc => .isTrue trivial
  | .free _ => inferInstanceAs (Decidable (_ ≤ _))

/-! ## The word in use -/

/-- The first word has the bits of the live ids, the second is never used. -/
structure Sound (tids : Tids) : Prop where
  tidmap : tids.tidmap = .ofPlaces tids.places
  place : ∀ entry ∈ tids.live, entry.2.1 = 0 ∧ entry.2.2 < 32 ∧ entry.1 = entry.2.2 + 1
  nodup : tids.ids.Nodup

def wordOf (bits : List Nat) : BitVec 32 :=
  bits.foldr (fun bit word => word ||| 1#32 <<< bit) 0

theorem getLsbD_wordOf (bits : List Nat) (index : Nat) :
    (wordOf bits).getLsbD index = (decide (index < 32) && decide (index ∈ bits)) := by
  induction bits with
  | nil => simp [wordOf]
  | cons bit rest induction =>
    have unfolded : wordOf (bit :: rest) = wordOf rest ||| 1#32 <<< bit := rfl
    rw [unfolded, getLsbD_or, induction, BitField.getLsbD_bit, ← Bool.and_or_distrib_left,
      Bool.or_comm]
    simp only [mem_cons, Bool.decide_or]

theorem ofPlaces_eq (places : List (Nat × Nat)) (first : ∀ place ∈ places, place.1 = 0) :
    TidMap.ofPlaces places = [wordOf (places.map Prod.snd), 0] := by
  induction places with
  | nil => rfl
  | cons place rest induction =>
    have unfolded : TidMap.ofPlaces (place :: rest)
        = (TidMap.ofPlaces rest).setBit place.1 place.2 := rfl
    rw [unfolded, induction fun other member => first other (mem_cons_of_mem _ member),
      first place mem_cons_self]
    rfl

variable {tids next : Tids}

namespace Sound

theorem not_full (room : tids.live.length < NPROC) :
    wordOf (tids.places.map Prod.snd) ≠ BitVec.allOnes 32 := by
  intro full
  have all : Finset.range 32 ⊆ (tids.places.map Prod.snd).toFinset := by
    intro bit below
    have isSet : (wordOf (tids.places.map Prod.snd)).getLsbD bit = true := by
      rw [full, getLsbD_allOnes]
      exact decide_eq_true (Finset.mem_range.mp below)
    rw [getLsbD_wordOf] at isSet
    rw [Bool.and_eq_true] at isSet
    exact mem_toFinset.mpr (of_decide_eq_true isSet.2)
  have bound := (Finset.card_le_card all).trans (toFinset_card_le _)
  simp only [Finset.card_range, places, length_map] at bound
  exact absurd room (by simp only [NPROC]; omega)

section
variable (sound : tids.Sound)
include sound

theorem first : ∀ place ∈ tids.places, place.1 = 0 := by
  intro place member
  rcases mem_map.mp member with ⟨entry, live, rfl⟩
  exact (sound.place entry live).1

theorem tidmap_eq : tids.tidmap = [wordOf (tids.places.map Prod.snd), 0] := by
  rw [sound.tidmap, ofPlaces_eq _ sound.first]

theorem bit_iff (bit : Nat) : bit ∈ tids.places.map Prod.snd ↔ bit + 1 ∈ tids.ids := by
  simp only [places, ids, mem_map, exists_exists_and_eq_and]
  constructor
  · rintro ⟨entry, live, rfl⟩
    exact ⟨entry, live, (sound.place entry live).2.2⟩
  · rintro ⟨entry, live, isTid⟩
    have := (sound.place entry live).2.2
    exact ⟨entry, live, by omega⟩

theorem findClear (room : tids.live.length < NPROC) :
    ∃ bit, tids.tidmap.findClear = some (0, bit) ∧ bit < 32 ∧ bit + 1 ∉ tids.ids := by
  have notFull := not_full room
  have clear : ∃ bit < 32, wordOf (tids.places.map Prod.snd) &&& 1#32 <<< bit = 0#32 := by
    by_contra none
    push Not at none
    apply notFull
    apply eq_of_getLsbD_eq
    intro bit below
    rw [getLsbD_allOnes, decide_eq_true below]
    by_contra isClear
    apply none bit below
    apply eq_of_getLsbD_eq
    intro index _
    rw [getLsbD_and, BitField.getLsbD_bit, getLsbD_zero]
    by_cases same : index = bit
    · rw [same]
      simp only [Bool.not_eq_true] at isClear
      rw [isClear, Bool.false_and]
    · simp [same]
  rcases clear with ⟨witness, below, isClear⟩
  have found : ((List.range 32).find? fun bit =>
      wordOf (tids.places.map Prod.snd) &&& 1#32 <<< bit == 0#32).isSome := by
    rw [find?_isSome]
    exact ⟨witness, mem_range.mpr below, by simpa using isClear⟩
  rcases Option.isSome_iff_exists.mp found with ⟨bit, isBit⟩
  have inRange : bit < 32 := mem_range.mp (mem_of_find?_eq_some isBit)
  refine ⟨bit, ?_, inRange, ?_⟩
  · rw [sound.tidmap_eq]
    simp only [TidMap.findClear, findIdx_cons, bne_iff_ne.mpr notFull, cond_true,
      getElem?_cons_zero, Option.bind_eq_bind, Option.bind_some, isBit]
    rfl
  · intro live
    have isZero := find?_some isBit
    have isSet : (wordOf (tids.places.map Prod.snd) &&& 1#32 <<< bit).getLsbD bit = true := by
      rw [getLsbD_and, getLsbD_wordOf, BitField.getLsbD_bit]
      simp only [inRange, decide_true, Bool.true_and, Bool.and_true]
      exact decide_eq_true ((sound.bit_iff bit).mpr live)
    rw [beq_iff_eq.mp isZero, getLsbD_zero] at isSet
    cases isSet

end

theorem start : start.Sound :=
  { tidmap := rfl, place := by simp [Tids.start], nodup := by simp [Tids.start, ids] }

variable (sound : tids.Sound)
include sound

theorem alloc (room : tids.Enabled .alloc)
    (performed : tids.perform .alloc = some next) : next.Sound := by
  rcases sound.findClear room with ⟨bit, found, below, fresh⟩
  simp only [perform, TidMap.allocTid, found, Option.bind_eq_bind, Option.bind_some,
    Option.map_some, Option.pure_def, Option.some.injEq] at performed
  subst performed
  have isTid : TidMap.tidAt (0, bit) = bit + 1 := by
    simp [TidMap.tidAt]
  refine { tidmap := ?_, place := ?_, nodup := ?_ }
  · show tids.tidmap.setBit 0 bit = _
    rw [sound.tidmap]
    rfl
  · intro entry member
    rcases mem_cons.mp member with rfl | member
    · exact ⟨rfl, below, isTid⟩
    · exact sound.place entry member
  · show (TidMap.tidAt (0, bit) :: tids.ids).Nodup
    rw [isTid]
    exact nodup_cons.mpr ⟨fresh, sound.nodup⟩

theorem entry_of_live {tid : Nat} (live : tid ∈ tids.ids) :
    ∃ bit before after, tids.live = before ++ (tid, 0, bit) :: after ∧ tid = bit + 1 ∧
      bit < 32 ∧ tids.live.eraseP (·.1 == tid) = before ++ after := by
  rcases mem_map.mp live with ⟨entry, member, rfl⟩
  rcases sound.place entry member with ⟨word, below, isTid⟩
  rcases exists_of_eraseP (p := fun other => other.1 == entry.1) member (by simp) with
    ⟨found, before, after, _, isFound, split, erased⟩
  have same : found = entry :=
    inj_on_of_nodup_map sound.nodup (by rw [split]; simp) member (by simpa using isFound)
  subst same
  refine ⟨found.2.2, before, after, ?_, isTid, below, erased⟩
  rw [split, ← word]

theorem free {tid : Nat} (live : tid ∈ tids.ids)
    (low : tid ≤ sizeofU32) (performed : tids.perform (.free tid) = some next) : next.Sound := by
  rcases sound.entry_of_live live with ⟨bit, before, after, split, rfl, below, erased⟩
  have small : bit < 4 := Nat.lt_of_succ_le low
  have word : (bit + 1 - 1) / sizeofU32 = 0 := by
    simp only [sizeofU32]; omega
  have position : (bit + 1 - 1) % sizeofU32 = bit := by
    simp only [sizeofU32]; omega
  simp only [perform, TidMap.freeTid, word, position, erased, sound.tidmap_eq,
    Option.bind_eq_bind] at performed
  simp only [length_cons, Nat.zero_lt_succ, if_true, Option.bind_some, Option.pure_def,
    Option.some.injEq] at performed
  subst performed
  have nodup := sound.nodup
  simp only [ids, split, map_append, map_cons] at nodup
  have kept : ∀ entry ∈ before ++ after, entry ∈ tids.live := by
    intro entry member
    rw [split]
    rcases mem_append.mp member with member | member
    · exact mem_append_left _ member
    · exact mem_append_right _ (mem_cons_of_mem _ member)
  have gone : bit ∉ (before ++ after).map fun entry => entry.2.2 := by
    intro member
    rcases mem_map.mp member with ⟨entry, member, isBit⟩
    have isTid := (sound.place entry (kept entry member)).2.2
    have absent := (nodup_middle.mp nodup)
    rw [nodup_cons, ← map_append] at absent
    exact absent.1 (mem_map.mpr ⟨entry, member, by rw [isTid, isBit]⟩)
  refine { tidmap := ?_, place := ?_, nodup := ?_ }
  · show [wordOf (tids.places.map Prod.snd) &&& ~~~(1#32 <<< bit), 0] = _
    rw [ofPlaces_eq]
    · congr 1
      apply eq_of_getLsbD_eq
      intro index inWord
      rw [getLsbD_and, getLsbD_not, BitField.getLsbD_bit, getLsbD_wordOf, getLsbD_wordOf]
      simp only [inWord, decide_true, Bool.true_and]
      simp only [places, split, map_map, map_append, map_cons, mem_append, mem_cons]
      by_cases same : index = bit
      · have absent : ¬ (index ∈ before.map (Prod.snd ∘ Prod.snd) ∨
            index ∈ after.map (Prod.snd ∘ Prod.snd)) := by
          rw [← mem_append, ← map_append, same]
          exact gone
        rw [decide_eq_false absent, same, decide_eq_true rfl, Bool.not_true, Bool.and_false]
      · simp [same]
    · intro place member
      rcases mem_map.mp member with ⟨entry, live, rfl⟩
      exact (sound.place entry (kept entry live)).1
  · exact fun entry member => sound.place entry (kept entry member)
  · show ((before ++ after).map Prod.fst).Nodup
    rw [map_append]
    exact (nodup_cons.mp (nodup_middle.mp nodup)).2

theorem step {call : Call} (low : FreesLow tids call)
    (stepped : machine.step tids call = some next) : next.Sound := by
  simp only [machine, Option.ite_none_right_eq_some] at stepped
  rcases stepped with ⟨enabled, performed⟩
  cases call with
  | alloc => exact sound.alloc enabled performed
  | free tid => exact sound.free enabled low performed

theorem exact : tids.Exact FreesLow := by
  refine { fresh := ?_, inRange := ?_, tidmap := sound.tidmap }
  · intro room tid tidmap allocated
    rcases sound.findClear room with ⟨bit, found, _, fresh⟩
    rw [TidMap.allocTid, found] at allocated
    cases allocated
    simpa [TidMap.tidAt] using fresh
  · intro call enabled low
    cases call with
    | alloc =>
      rcases sound.findClear enabled with ⟨bit, found, _⟩
      simp [perform, TidMap.allocTid, found]
    | free tid =>
      have word : (tid - 1) / sizeofU32 < tids.tidmap.length := by
        have low : tid ≤ sizeofU32 := low
        rw [sound.tidmap_eq]
        simp only [sizeofU32, length_cons, length_nil] at low ⊢
        omega
      simp [perform, TidMap.freeTid, word]

end Sound

/-- As long as only ids up to `sizeof(u32)` are freed, ids stay unique and the map
exact. -/
theorem exact_of_reaches_freesLow (reached : machine.Reaches FreesLow tids) :
    tids.Exact FreesLow := by
  apply Sound.exact
  refine reached.invariant Sound ?_ ?_
  · rintro state rfl
    exact Sound.start
  · intro state call next sound low stepped
    exact sound.step low stepped

def reuseRun : List Call :=
  List.replicate 5 .alloc ++ [.free 4, .alloc]

theorem exact_after_reuse :
    ∃ tids, machine.run start reuseRun = some tids ∧ tids.ids = [4, 5, 3, 2, 1] ∧
      tids.Exact FreesLow := by
  rcases (⟨_, rfl, rfl⟩ : ∃ tids, machine.run start reuseRun = some tids ∧
    tids.ids = [4, 5, 3, 2, 1]) with ⟨tids, ran, isIds⟩
  refine ⟨tids, ran, isIds, exact_of_reaches_freesLow ?_⟩
  exact Machine.Reaches.run (.initial rfl) (by decide) ran

/-- Freeing id 5 leaves its bit set, and freeing id 9 reads past the array. -/
theorem freeTid_misses_high_ids :
    (∃ tids, machine.run start (List.replicate 5 .alloc ++ [.free 5]) = some tids ∧
      tids.tidmap ≠ .ofPlaces tids.places) ∧
    ∃ tids, machine.run start (List.replicate 9 .alloc) = some tids ∧
      tids.Enabled (.free 9) ∧ tids.perform (.free 9) = none := by
  exact ⟨⟨_, rfl, by decide⟩, ⟨_, rfl, by decide, rfl⟩⟩

end Tids
end Tnix.Task
