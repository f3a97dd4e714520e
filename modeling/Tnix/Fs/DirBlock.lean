import Tnix.Fs.Volume

/-! # Directory blocks

What the stores of `dentry_add` and `dentry_del` do to the entries of a block, and what
the scan for a name finds in a block whose count is right. -/

namespace Tnix.Fs

open List

namespace Block

def Slot (j : Nat) : Prop := 1 ≤ j ∧ j ≤ dentryMax

variable {j i : Nat} {block data : Block} {name : List UInt8}

theorem Slot.mem_range : j ∈ List.range' 1 dentryMax ↔ Slot j := by
  rw [mem_range'_1, Slot, dentryMax, BSIZE]
  omega

structure Entered (old new : Block) (j : Nat) (inum : UInt32) (name : List UInt8) : Prop where
  cnt : new.cnt = old.cnt + 1
  inum_same : ∀ i, Slot i → i ≠ j → new.dentryInum i = old.dentryInum i
  name_same : ∀ i index, Slot i → i ≠ j → index < DLENGTH →
    new.dentryName i index = old.dentryName i index
  inum : new.dentryInum j = inum
  name : ∀ index, index < DLENGTH → index ≤ name.length →
    new.dentryName j index = name.getD index 0

structure Cleared (old new : Block) (j : Nat) : Prop where
  cnt : new.cnt = old.cnt - 1
  inum_same : ∀ i, Slot i → new.dentryInum i = old.dentryInum i
  name_same : ∀ i index, Slot i → i ≠ j → index < DLENGTH →
    new.dentryName i index = old.dentryName i index
  dead : new.live j = false

/-! ## The stores -/

section
variable {data : Block} {j : Nat} {inum : UInt32} {name : List UInt8}

theorem cnt_setEntry (slot : Slot j) : (setEntry data j inum name).cnt = data.cnt := by
  have bounds := slot
  simp only [Slot, dentryMax, BSIZE] at bounds
  rw [cnt, setEntry, dentryNameSet, u64_setBytes _ _ _ (by omega), u64_setU32 _ _ _ (by omega), cnt]

theorem dentryInum_setEntry (slot : Slot j) (i : Nat) :
    (setEntry data j inum name).dentryInum i = if i = j then inum else data.dentryInum i := by
  have bounds := slot
  simp only [Slot, dentryMax, BSIZE] at bounds
  have short : ((name ++ [0]).take DLENGTH).length ≤ 28 := by
    rw [length_take]
    exact Nat.min_le_left _ _
  rw [dentryInum, setEntry, dentryNameSet, u32_setBytes _ _ _ (by omega), u32_setU32 _ _
    (by simp only [IDX_CNT_PER_INDIRECT_BLCOK, BSIZE]; omega), dentryInum]
  have same : 8 * i = 8 * j ↔ i = j := by omega
  simp only [same]

variable {index : Nat}

theorem dentryName_nameSet (slot : Slot j) (i : Nat) (inName : index < DLENGTH) :
    (data.dentryNameSet j name).dentryName i index =
      if i = j then ((name ++ [0]).take DLENGTH).getD index (data.dentryName i index)
      else data.dentryName i index := by
  have bounds := slot
  simp only [Slot, dentryMax, BSIZE, DLENGTH] at bounds inName
  have short : ((name ++ [0]).take DLENGTH).length ≤ 28 := by
    rw [length_take]
    exact Nat.min_le_left _ _
  rw [dentryName, dentryNameSet, u8_setBytes _ _ _ _ (by simp only [BSIZE]; omega)]
  by_cases same : i = j
  · subst same
    rw [if_pos (by omega), if_pos rfl, dentryName]
    congr 1
    omega
  · rw [if_neg same]
    split
    · rw [getD_eq_default _ _ (by omega), dentryName]
    · rfl

theorem dentryName_setEntry (slot : Slot j) (i : Nat) (inName : index < DLENGTH) :
    (setEntry data j inum name).dentryName i index =
      if i = j then ((name ++ [0]).take DLENGTH).getD index (data.dentryName i index)
      else data.dentryName i index := by
  have kept : (data.setU32 (8 * j) inum).dentryName i index = data.dentryName i index := by
    simp only [DLENGTH] at inName
    rw [dentryName, u8_setU32 _ _ _ (by omega), dentryName]
  rw [setEntry, dentryName_nameSet slot i inName, kept]

theorem getD_take_append (inName : index < DLENGTH) (atMost : index ≤ name.length) (byte : UInt8) :
    ((name ++ [0]).take DLENGTH).getD index byte = name.getD index 0 := by
  have present : index < (name ++ [0]).length := by
    rw [length_append, length_singleton]
    omega
  have inTake : index < ((name ++ [0]).take DLENGTH).length := by
    rw [length_take]
    omega
  rw [getD_eq_getElem _ _ inTake, getElem_take]
  by_cases inside : index < name.length
  · rw [getElem_append_left inside, getD_eq_getElem _ _ inside]
  · have last : index = name.length := by omega
    subst last
    rw [getElem_append_right (Nat.le_refl _), getD_eq_default _ _ (Nat.le_refl _)]
    simp

theorem entered_add (slot : Slot j) :
    Entered data
      ((setEntry data j inum name).setU64 0 ((setEntry data j inum name).cnt + 1)) j inum name := by
  have bounds := slot
  simp only [Slot, dentryMax, BSIZE] at bounds
  have sameInum : ∀ i, Slot i →
      ((setEntry data j inum name).setU64 0 ((setEntry data j inum name).cnt + 1)).dentryInum i =
        (setEntry data j inum name).dentryInum i := by
    intro i iSlot
    rw [dentryInum, u32_setU64 _ _ _ (by simp only [Slot] at iSlot; omega), dentryInum]
  have sameName : ∀ i index, Slot i →
      ((setEntry data j inum name).setU64 0 ((setEntry data j inum name).cnt + 1)).dentryName i
        index = (setEntry data j inum name).dentryName i index := by
    intro i index iSlot
    rw [dentryName, u8_setU64 _ _ _ (by simp only [Slot] at iSlot; omega), dentryName]
  constructor
  · rw [cnt, u64_setU64 _ _ (by decide), cnt_setEntry slot]
  · intro i iSlot different
    rw [sameInum i iSlot, dentryInum_setEntry slot, if_neg different]
  · intro i index iSlot different inName
    rw [sameName i index iSlot, dentryName_setEntry slot i inName, if_neg different]
  · rw [sameInum j slot, dentryInum_setEntry slot, if_pos rfl]
  · intro index inName atMost
    rw [sameName j index slot, dentryName_setEntry slot j inName, if_pos rfl,
      getD_take_append inName atMost]

theorem entered_new (inum : UInt32) (name : List UInt8) :
    Entered 0 (setEntry ((0 : Block).setU64 0 1) 1 inum name) 1 inum name := by
  have slot : Slot 1 := by simp [Slot, dentryMax, BSIZE]
  have sameInum : ∀ i, Slot i → ((0 : Block).setU64 0 1).dentryInum i = (0 : Block).dentryInum i := by
    intro i iSlot
    rw [dentryInum, u32_setU64 _ _ _ (by simp only [Slot] at iSlot; omega), dentryInum]
  have sameName : ∀ i index, Slot i →
      ((0 : Block).setU64 0 1).dentryName i index = (0 : Block).dentryName i index := by
    intro i index iSlot
    rw [dentryName, u8_setU64 _ _ _ (by simp only [Slot] at iSlot; omega), dentryName]
  constructor
  · rw [cnt_setEntry slot, cnt, u64_setU64 _ _ (by decide), cnt]
    simp
  · intro i iSlot different
    rw [dentryInum_setEntry slot, if_neg different, sameInum i iSlot]
  · intro i index iSlot different inName
    rw [dentryName_setEntry slot i inName, if_neg different, sameName i index iSlot]
  · rw [dentryInum_setEntry slot, if_pos rfl]
  · intro index inName atMost
    rw [dentryName_setEntry slot 1 inName, if_pos rfl, getD_take_append inName atMost]

theorem dentryName_clearName (slot : Slot j) : (clearName data j).dentryName j 0 = 0 := by
  simp only [Slot, dentryMax, BSIZE] at slot
  rw [dentryName, u8, clearName, Nat.add_zero]
  apply congrArg UInt8.ofBitVec
  apply BitVec.eq_of_getLsbD_eq
  intro index inByte
  rw [BitField.getLsbD_get, BitField.getLsbD_put, if_pos (by omega)]
  simp

theorem cleared_del (slot : Slot j) :
    Cleared data ((clearName data j).setU64 0 ((clearName data j).cnt - 1)) j := by
  have bounds := slot
  simp only [Slot, dentryMax, BSIZE] at bounds
  have nameCleared : ∀ i index, index < DLENGTH → i ≠ j →
      (clearName data j).dentryName i index = data.dentryName i index := by
    intro i index inName different
    simp only [DLENGTH] at inName
    rw [dentryName, dentryName, u8, u8, clearName, BitField.get_put_of_disjoint]
    omega
  have sameName : ∀ i index, Slot i →
      ((clearName data j).setU64 0 ((clearName data j).cnt - 1)).dentryName i index =
        (clearName data j).dentryName i index := by
    intro i index iSlot
    rw [dentryName, u8_setU64 _ _ _ (by simp only [Slot] at iSlot; omega), dentryName]
  constructor
  · rw [cnt, u64_setU64 _ _ (by decide), cnt, cnt, u64, clearName,
      BitField.get_put_of_disjoint _ _ (by omega), u64]
  · intro i iSlot
    simp only [Slot] at iSlot
    rw [dentryInum, u32_setU64 _ _ _ (by omega), u32, clearName,
      BitField.get_put_of_disjoint _ _ (by omega), dentryInum, u32]
  · intro i index iSlot different inName
    rw [sameName i index iSlot, nameCleared i index inName different]
  · rw [live, sameName j 0 slot, dentryName_clearName slot]
    rfl

end

/-! ## Names -/

/-- A name that fits into an entry; one that fills it has no NUL behind it. -/
def Valid (name : List UInt8) : Prop := name ≠ [] ∧ name.length ≤ DLENGTH ∧ 0 ∉ name

instance (name : List UInt8) : Decidable (Valid name) := inferInstanceAs (Decidable (_ ∧ _ ∧ _))

theorem takeWhile_map_range (bytes : Nat → UInt8) (name : List UInt8) {size : Nat}
    (short : name.length ≤ size) (noNul : 0 ∉ name)
    (same : ∀ index, index < size → index ≤ name.length → bytes index = name.getD index 0) :
    ((List.range size).map bytes).takeWhile (· ≠ 0) = name := by
  induction name generalizing bytes size with
  | nil =>
    cases size with
    | zero => rfl
    | succ size =>
      have first : bytes 0 = 0 := same 0 (Nat.succ_pos _) (Nat.le_refl 0)
      rw [range_succ_eq_map, map_cons, first]
      rfl
  | cons byte rest induction =>
    cases size with
    | zero => cases Nat.not_succ_le_zero _ short
    | succ size =>
      have first : bytes 0 = byte := same 0 (Nat.succ_pos _) (Nat.zero_le _)
      have nonzero : byte ≠ 0 := fun isZero => noNul (isZero ▸ mem_cons_self)
      have tail : ((List.range size).map fun index => bytes (index + 1)).takeWhile (· ≠ 0) =
          rest :=
        induction _ (Nat.le_of_succ_le_succ short)
          (fun member => noNul (mem_cons_of_mem _ member))
          (fun index inside atMost =>
            same (index + 1) (Nat.succ_lt_succ inside) (Nat.succ_le_succ atMost))
      rw [range_succ_eq_map, map_cons, map_map, first,
        takeWhile_cons_of_pos (by simpa using nonzero)]
      exact congrArg (byte :: ·) tail

theorem bytes_takeWhile (size : Nat) : ∀ (bytes : Nat → UInt8) (index : Nat), index < size →
    index ≤ (((List.range size).map bytes).takeWhile (· ≠ 0)).length →
    bytes index = (((List.range size).map bytes).takeWhile (· ≠ 0)).getD index 0 := by
  induction size with
  | zero =>
    intro bytes index inside
    cases Nat.not_lt_zero _ inside
  | succ size induction =>
    intro bytes index inside
    rw [range_succ_eq_map, map_cons, map_map]
    by_cases isZero : bytes 0 = 0
    · rw [takeWhile_cons_of_neg (by simpa using isZero)]
      intro atMost
      obtain rfl : index = 0 := Nat.le_zero.mp atMost
      exact isZero
    · rw [takeWhile_cons_of_pos (by simpa using isZero)]
      intro atMost
      cases index with
      | zero => rfl
      | succ index =>
        exact induction (bytes ∘ Nat.succ) index (Nat.lt_of_succ_lt_succ inside)
          (Nat.le_of_succ_le_succ atMost)

theorem name_eq_of_bytes (short : name.length ≤ DLENGTH) (noNul : 0 ∉ name)
    (same : ∀ index, index < DLENGTH → index ≤ name.length →
      block.dentryName j index = name.getD index 0) :
    block.name j = name :=
  takeWhile_map_range _ name short noNul same

theorem live_iff (block : Block) (j : Nat) : block.live j = true ↔ block.name j ≠ [] := by
  rw [live, name, DLENGTH, range_succ_eq_map, map_cons]
  by_cases isZero : block.dentryName j 0 = 0
  · simp [isZero]
  · rw [takeWhile_cons_of_pos (by simpa using isZero)]
    simpa using isZero

theorem name_congr {other : Block}
    (same : ∀ index, index < DLENGTH → block.dentryName j index = other.dentryName i index) :
    block.name j = other.name i := by
  rw [name, name]
  congr 1
  apply map_congr_left
  intro index member
  exact same index (mem_range.mp member)

theorem live_congr {other : Block}
    (same : ∀ index, index < DLENGTH → block.dentryName j index = other.dentryName i index) :
    block.live j = other.live i := by
  rw [live, live, same 0 (by decide)]

theorem dentryNameEqualFrom_iff (bytes : Nat → UInt8) (other : List UInt8) (noNul : 0 ∉ other)
    (remaining : Nat) : ∀ index, index ≤ other.length → other.length ≤ index + remaining →
      (dentryNameEqualFrom bytes other remaining index = true ↔
        ∀ later, index ≤ later → later < index + remaining → later ≤ other.length →
          bytes later = other.getD later 0) := by
  induction remaining with
  | zero =>
    intro index atMost enough
    obtain rfl : index = other.length := by omega
    rw [dentryNameEqualFrom, getD_eq_default _ _ (Nat.le_refl _)]
    refine iff_of_true rfl fun later atLeast less => ?_
    omega
  | succ remaining induction =>
    intro index atMost enough
    rw [dentryNameEqualFrom]
    split
    case isTrue different =>
      simp only [Bool.false_eq_true, false_iff]
      exact fun all => different (all index (Nat.le_refl _) (by omega) atMost)
    case isFalse same =>
      rw [ne_eq, not_not] at same
      by_cases last : index = other.length
      · have ended : bytes index = 0 := by
          rw [same, getD_eq_default _ _ (by omega)]
        rw [if_pos ended]
        simp only [true_iff]
        intro later atLeast _ laterAtMost
        obtain rfl : later = index := by omega
        exact same
      · have inside : index < other.length := by omega
        have present : bytes index ≠ 0 := by
          intro isZero
          rw [getD_eq_getElem _ _ inside] at same
          exact noNul (isZero ▸ same ▸ getElem_mem inside)
        rw [if_neg present, induction (index + 1) (by omega) (by omega)]
        constructor
        · intro all later atLeast less laterAtMost
          by_cases here : later = index
          · rw [here, same]
          · exact all later (by omega) (by omega) laterAtMost
        · intro all later atLeast less laterAtMost
          exact all later (by omega) (by omega) laterAtMost

variable {other : List UInt8}

theorem dentryNameEqual_iff (short : other.length ≤ DLENGTH) (noNul : 0 ∉ other) :
    block.dentryNameEqual j other = true ↔ block.name j = other := by
  rw [dentryNameEqual, dentryNameEqualFrom_iff _ _ noNul _ 0 (Nat.zero_le _) (by omega),
    Nat.zero_add]
  constructor
  · intro all
    exact name_eq_of_bytes short noNul fun index inside atMost =>
      all index (Nat.zero_le _) inside atMost
  · rintro rfl index - inside atMost
    exact bytes_takeWhile DLENGTH _ index inside atMost

/-! ## A name that was stored

The bytes of a longer name that was in the slot before may be left behind the NUL. -/

theorem length_le_of_getD {index : Nat} (noNul : 0 ∉ other) (ended : other.getD index 0 = 0) :
    other.length ≤ index := by
  by_contra inside
  rw [getD_eq_getElem _ _ (Nat.not_le.mp inside)] at ended
  exact noNul (ended ▸ getElem_mem _)

theorem length_le_of_nameEqualFrom {bytes : Nat → UInt8} {index : Nat} (noNul : 0 ∉ other)
    (remaining : Nat) (equal : dentryNameEqualFrom bytes other remaining index = true) :
    other.length ≤ index + remaining := by
  induction remaining generalizing index with
  | zero => exact length_le_of_getD noNul (beq_iff_eq.mp equal)
  | succ remaining induction =>
    rw [dentryNameEqualFrom] at equal
    split at equal
    case isTrue => cases equal
    case isFalse same =>
      split at equal
      case isTrue ended =>
        have := length_le_of_getD noNul ((not_not.mp same).symm.trans ended)
        omega
      case isFalse =>
        have := induction equal
        omega

theorem name_nameSet (slot : Slot j) (short : name.length ≤ DLENGTH) (noNul : 0 ∉ name) :
    (data.dentryNameSet j name).name j = name :=
  name_eq_of_bytes short noNul fun index inside atMost => by
    rw [dentryName_nameSet slot j inside, if_pos rfl, getD_take_append inside atMost]

/-- The comparison is exact whatever was in the slot, and for strings of any length. -/
theorem nameSet_exact (data : Block) (slot : Slot j) (short : name.length ≤ DLENGTH)
    (noNul : 0 ∉ name) :
    (∀ other : List UInt8, 0 ∉ other →
      ((data.dentryNameSet j name).dentryNameEqual j other = true ↔ name = other)) ∧
    (name ≠ [] → (data.dentryNameSet j name).dentryName j 0 ≠ 0) ∧
    (clearName data j).dentryName j 0 = 0 := by
  refine ⟨fun other otherNoNul => ?_, fun nonempty => ?_, dentryName_clearName slot⟩
  · by_cases otherShort : other.length ≤ DLENGTH
    · rw [dentryNameEqual_iff otherShort otherNoNul, name_nameSet slot short noNul]
    · refine iff_of_false (fun equal => otherShort ?_) fun same => otherShort (same ▸ short)
      have := length_le_of_nameEqualFrom otherNoNul DLENGTH equal
      omega
  · have stored := (live_iff (data.dentryNameSet j name) j).mpr
      (by rwa [name_nameSet slot short noNul])
    exact bne_iff_ne.mp stored

theorem nameSet_exact_over : ((0 : Block).dentryNameSet 1 [98, 98, 98]).dentryName 1 2 = 98 ∧
    ∀ other : List UInt8, 0 ∉ other →
      ((((0 : Block).dentryNameSet 1 [98, 98, 98]).dentryNameSet 1 [97]).dentryNameEqual 1 other =
        true ↔ [97] = other) :=
  ⟨by decide +kernel, (nameSet_exact _ ⟨by decide, by decide⟩ (by decide) (by decide)).1⟩

/-! ## The scan for a name -/

theorem countP_range'_next {test : Nat → Bool} (less : j < i) :
    (List.range' j (i - j)).countP test =
      (List.range' (j + 1) (i - (j + 1))).countP test + if test j then 1 else 0 := by
  rw [show i - j = i - (j + 1) + 1 by omega, List.range'_succ, countP_cons]

theorem findEntryFrom_some (remaining : Nat) :
    ∀ j k, findEntryFrom data name remaining j k = some i →
      j ≤ i ∧ i < j + remaining ∧ data.dentryNameEqual i name = true ∧
        k + (List.range' j (i - j)).countP data.live < data.cnt.toNat := by
  induction remaining with
  | zero =>
    intro j k found
    cases found
  | succ remaining induction =>
    intro j k found
    rw [findEntryFrom] at found
    split at found
    case isFalse => cases found
    case isTrue more =>
      split at found
      case isTrue equal =>
        cases found
        rw [Nat.sub_self]
        exact ⟨Nat.le_refl _, by omega, equal, more⟩
      case isFalse =>
        rcases induction _ _ found with ⟨atLeast, less, equal, before⟩
        refine ⟨by omega, by omega, equal, ?_⟩
        rw [countP_range'_next (by omega)]
        split at before
        case isTrue isLive =>
          rw [if_pos isLive]
          omega
        case isFalse dead =>
          rw [if_neg dead]
          omega

theorem findEntryFrom_none (remaining : Nat) :
    ∀ j k, findEntryFrom data name remaining j k = none → j ≤ i → i < j + remaining →
      data.dentryNameEqual i name = true →
      data.cnt.toNat ≤ k + (List.range' j (i - j)).countP data.live := by
  induction remaining with
  | zero =>
    intro j k _ atLeast less
    omega
  | succ remaining induction =>
    intro j k missing atLeast less equal
    rw [findEntryFrom] at missing
    split at missing
    case isFalse ended => omega
    case isTrue =>
      split at missing
      case isTrue => cases missing
      case isFalse different =>
        have later : i ≠ j := by
          rintro rfl
          exact different equal
        have before := induction _ _ missing (by omega) (by omega) equal
        rw [countP_range'_next (by omega)]
        split at before
        case isTrue isLive =>
          rw [if_pos isLive]
          omega
        case isFalse dead =>
          rw [if_neg dead]
          omega

theorem findEntry_slot (found : findEntry data name = some i) :
    Slot i ∧ data.dentryNameEqual i name = true := by
  rcases findEntryFrom_some dentryMax 1 0 found with ⟨atLeast, less, equal, _⟩
  exact ⟨⟨atLeast, by omega⟩, equal⟩

theorem findEntry_eq_some (valid : Valid name) (found : findEntry data name = some i) :
    Slot i ∧ data.name i = name := by
  rcases findEntry_slot found with ⟨slot, equal⟩
  exact ⟨slot, (dentryNameEqual_iff valid.2.1 valid.2.2).mp equal⟩

theorem findEntry_eq_none (counted : data.Counted) (valid : Valid name)
    (missing : findEntry data name = none) (slot : Slot i) :
    data.name i ≠ name := by
  intro same
  have isLive : data.live i = true := by
    rw [live_iff, same]
    exact valid.1
  have early := findEntryFrom_none dentryMax 1 0 missing slot.1 (by have := slot.2; omega)
    ((dentryNameEqual_iff valid.2.1 valid.2.2).mpr same)
  have all : List.range' 1 dentryMax =
      List.range' 1 (i - 1) ++ i :: List.range' (i + 1) (dentryMax - i) := by
    have slots := (@List.range'_append_1 1 (i - 1) (dentryMax - i + 1)).symm
    rwa [List.range'_succ, Nat.add_sub_cancel' slot.1,
      show i - 1 + (dentryMax - i + 1) = dentryMax by have := slot.1; have := slot.2; omega]
      at slots
  rw [counted, all, countP_append, countP_cons_of_pos isLive] at early
  omega

theorem freeEntry_eq_some (found : freeEntry data = some j) :
    Slot j ∧ data.live j = false := by
  refine ⟨Slot.mem_range.mp (mem_of_find?_eq_some found), ?_⟩
  simpa using find?_some found

theorem freeEntry_eq_none (full : freeEntry data = none) (slot : Slot j) : data.live j = true := by
  simpa using find?_eq_none.mp full j (Slot.mem_range.mpr slot)

/-! ## Counts -/

theorem countP_slot (slot : Slot j) (test : Nat → Bool) :
    (List.range' 1 dentryMax).countP test =
      (if test j then 1 else 0) + ((List.range' 1 dentryMax).erase j).countP test := by
  have perm := perm_cons_erase (Slot.mem_range.mpr slot)
  rw [perm.countP_eq, countP_cons, Nat.add_comm]

theorem countP_others {first second : Nat → Bool} (same : ∀ i, Slot i → i ≠ j →
    first i = second i) :
    ((List.range' 1 dentryMax).erase j).countP first =
      ((List.range' 1 dentryMax).erase j).countP second := by
  have nodup : (List.range' 1 dentryMax).Nodup := nodup_range'
  apply countP_congr
  intro i member
  rw [nodup.mem_erase_iff] at member
  rw [same i (Slot.mem_range.mp member.2) member.1]

theorem Counted.le (counted : data.Counted) : data.cnt.toNat ≤ dentryMax := by
  rw [counted]
  exact (countP_le_length).trans (by rw [length_range'])

section
variable {old new : Block} {j : Nat} {inum : UInt32} {name : List UInt8}

theorem Entered.name_at (entered : Entered old new j inum name) (short : name.length ≤ DLENGTH)
    (noNul : 0 ∉ name) : new.name j = name :=
  name_eq_of_bytes short noNul entered.name

variable {i : Nat}

section
variable (entered : Entered old new j inum name)
include entered

theorem Entered.name_other (slot : Slot i) (different : i ≠ j) : new.name i = old.name i :=
  name_congr fun index => entered.name_same i index slot different

theorem Entered.live_other (slot : Slot i) (different : i ≠ j) : new.live i = old.live i :=
  live_congr fun index => entered.name_same i index slot different

theorem Entered.live_at (valid : Valid name) : new.live j = true := by
  rw [live_iff, entered.name_at valid.2.1 valid.2.2]
  exact valid.1

theorem Entered.counted (slot : Slot j)
    (valid : Valid name) (isFree : old.live j = false) (counted : old.Counted) : new.Counted := by
  have bound := counted.le
  have sum : new.cnt.toNat = old.cnt.toNat + 1 := by
    rw [entered.cnt, BitVec.toNat_add]
    simp only [dentryMax, BSIZE] at bound
    exact Nat.mod_eq_of_lt (by simp; omega)
  have others : ((List.range' 1 dentryMax).erase j).countP new.live =
      ((List.range' 1 dentryMax).erase j).countP old.live :=
    countP_others fun i iSlot different => entered.live_other iSlot different
  rw [Counted, countP_slot slot] at counted ⊢
  rw [sum, counted, entered.live_at valid, others, isFree]
  simp only [if_true, Bool.false_eq_true, if_false]
  omega

end

variable (cleared : Cleared old new j)
include cleared

theorem Cleared.name_other (slot : Slot i) (different : i ≠ j) : new.name i = old.name i :=
  name_congr fun index => cleared.name_same i index slot different

theorem Cleared.live_other (slot : Slot i) (different : i ≠ j) : new.live i = old.live i :=
  live_congr fun index => cleared.name_same i index slot different

theorem Cleared.counted (slot : Slot j) (wasLive : old.live j = true)
    (counted : old.Counted) : new.Counted := by
  have whole : old.cnt.toNat = 1 + ((List.range' 1 dentryMax).erase j).countP old.live := by
    rw [counted, countP_slot slot, wasLive, if_pos rfl]
  have difference : new.cnt.toNat = old.cnt.toNat - 1 := by
    rw [cleared.cnt, BitVec.toNat_sub_of_le]
    · rfl
    · rw [BitVec.le_def]
      simp
      omega
  have others : ((List.range' 1 dentryMax).erase j).countP new.live =
      ((List.range' 1 dentryMax).erase j).countP old.live :=
    countP_others fun i iSlot different => cleared.live_other iSlot different
  rw [Counted, countP_slot slot, cleared.dead, others, difference, whole]
  simp only [Bool.false_eq_true, if_false]
  omega

end
end Block
end Tnix.Fs
