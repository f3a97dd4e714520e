import Mathlib.Data.List.GetD
import Tnix.Config
import Tnix.Foundation.BitField

/-! # On-disk structures of `fs.h` and `dir.h` -/

namespace Tnix.Fs

open BitField

inductive Ftype
  | UNUSE
  | REGULAR
  | DIRECTORY
  | CHAR
  deriving DecidableEq, Repr

/-- `struct dinode`; `iblock` is read at indices below `NDIRECT + NINDIRECT`. -/
structure Dinode where
  type : Ftype
  dev : UInt32
  nlink : UInt32
  fsize : UInt32
  iblock : Fin (NDIRECT + NINDIRECT) → UInt32

/-- The fields of `struct superblock` that the kernel reads. -/
structure Superblock where
  imap : Nat
  inodes : Nat
  bmap : Nat
  blocks : Nat
  deriving DecidableEq, Repr

/-- A disk block of `BSIZE` bytes in little-endian order: bit `i` of the vector is bit
`i % 8` of byte `i / 8`. -/
abbrev Block := BitVec 8192

namespace Block

/-! ## Bytes and words -/

def u8 (block : Block) (index : Nat) : UInt8 := ⟨BitField.get block (8 * index) 8⟩

def u32 (block : Block) (index : Nat) : UInt32 := ⟨BitField.get block (32 * index) 32⟩

def u64 (block : Block) (index : Nat) : BitVec 64 := BitField.get block (64 * index) 64

def setU8 (block : Block) (index : Nat) (value : UInt8) : Block :=
  BitField.put block (8 * index) value.toBitVec

def setU32 (block : Block) (index : Nat) (value : UInt32) : Block :=
  BitField.put block (32 * index) value.toBitVec

def setU64 (block : Block) (index : Nat) (value : BitVec 64) : Block :=
  BitField.put block (64 * index) value

def setBytes (block : Block) (start : Nat) : List UInt8 → Block
  | [] => block
  | byte :: rest => setBytes (block.setU8 start byte) (start + 1) rest

def setWords (block : Block) (start : Nat) : List UInt32 → Block
  | [] => block
  | word :: rest => setWords (block.setU32 start word) (start + 1) rest

variable {index other : Nat}

section
variable (block : Block)
include block

theorem u8_setU8 (value : UInt8) (inBlock : index < BSIZE) (other : Nat) :
    (block.setU8 index value).u8 other = if other = index then value else block.u8 other := by
  simp only [BSIZE] at inBlock
  split
  case isTrue same =>
    subst same
    simp only [u8, setU8, get_put block value.toBitVec (show 8 * other + 8 ≤ 8192 by omega)]
  case isFalse different =>
    simp only [u8, setU8]
    rw [get_put_of_disjoint]
    omega

theorem u32_setU32 (value : UInt32) (inBlock : index < IDX_CNT_PER_INDIRECT_BLCOK) (other : Nat) :
    (block.setU32 index value).u32 other = if other = index then value else block.u32 other := by
  simp only [IDX_CNT_PER_INDIRECT_BLCOK, BSIZE] at inBlock
  split
  case isTrue same =>
    subst same
    simp only [u32, setU32, get_put block value.toBitVec (show 32 * other + 32 ≤ 8192 by omega)]
  case isFalse different =>
    simp only [u32, setU32]
    rw [get_put_of_disjoint]
    omega

section
variable (index : Nat)

theorem u32_setU8 (value : UInt8) (disjoint : index < 4 * other ∨ 4 * other + 4 ≤ index) :
    (block.setU8 index value).u32 other = block.u32 other := by
  simp only [u32, setU8]
  rw [get_put_of_disjoint]
  omega

theorem u64_setU8 (value : UInt8) (disjoint : index < 8 * other ∨ 8 * other + 8 ≤ index) :
    (block.setU8 index value).u64 other = block.u64 other := by
  simp only [u64, setU8]
  rw [get_put_of_disjoint]
  omega

theorem u8_setU32 (value : UInt32) (disjoint : other < 4 * index ∨ 4 * index + 4 ≤ other) :
    (block.setU32 index value).u8 other = block.u8 other := by
  simp only [u8, setU32]
  rw [get_put_of_disjoint]
  omega

theorem u64_setU32 (value : UInt32)
    (disjoint : 4 * index + 4 ≤ 8 * other ∨ 8 * other + 8 ≤ 4 * index) :
    (block.setU32 index value).u64 other = block.u64 other := by
  simp only [u64, setU32]
  rw [get_put_of_disjoint]
  omega

theorem u8_setU64 (value : BitVec 64) (disjoint : other < 8 * index ∨ 8 * index + 8 ≤ other) :
    (block.setU64 index value).u8 other = block.u8 other := by
  simp only [u8, setU64]
  rw [get_put_of_disjoint]
  omega

theorem u32_setU64 (value : BitVec 64) (disjoint : other < 2 * index ∨ 2 * index + 2 ≤ other) :
    (block.setU64 index value).u32 other = block.u32 other := by
  simp only [u32, setU64]
  rw [get_put_of_disjoint]
  omega

end

theorem u64_setU64 (value : BitVec 64) (inBlock : index < BSIZE / 8) :
    (block.setU64 index value).u64 index = value := by
  simp only [BSIZE] at inBlock
  simp only [u64, setU64]
  exact get_put block value (by omega)

end

@[simp] theorem u8_zero (index : Nat) : u8 0#8192 index = 0 := by
  simp [u8]

@[simp] theorem u32_zero (index : Nat) : u32 0#8192 index = 0 := by
  simp [u32]

@[simp] theorem u64_zero (index : Nat) : u64 0#8192 index = 0#64 := by
  simp [u64]

theorem u8_setBytes (bytes : List UInt8) :
    ∀ (block : Block) (start index : Nat), start + bytes.length ≤ BSIZE →
      (block.setBytes start bytes).u8 index =
        if start ≤ index then bytes.getD (index - start) (block.u8 index) else block.u8 index := by
  induction bytes with
  | nil =>
    intro block start index _
    simp [setBytes]
  | cons byte rest induction =>
    intro block start index fits
    simp only [List.length_cons] at fits
    rw [setBytes, induction _ _ _ (by omega), u8_setU8 block byte (by omega)]
    by_cases same : index = start
    · subst same
      simp
    · by_cases after : start + 1 ≤ index
      · have split : index - start = index - (start + 1) + 1 := by omega
        have atLeast : start ≤ index := by omega
        simp [after, atLeast, split, same]
      · have before : ¬ start ≤ index := by omega
        simp [after, before, same]

theorem u32_setBytes (bytes : List UInt8) :
    ∀ (block : Block) (start : Nat) {other : Nat},
      start + bytes.length ≤ 4 * other ∨ 4 * other + 4 ≤ start →
      (block.setBytes start bytes).u32 other = block.u32 other := by
  induction bytes with
  | nil => exact fun _ _ _ _ => rfl
  | cons byte rest induction =>
    intro block start other disjoint
    simp only [List.length_cons] at disjoint
    rw [setBytes, induction _ _ (by omega), u32_setU8 block start byte (by omega)]

theorem u64_setBytes (bytes : List UInt8) :
    ∀ (block : Block) (start : Nat) {other : Nat},
      start + bytes.length ≤ 8 * other ∨ 8 * other + 8 ≤ start →
      (block.setBytes start bytes).u64 other = block.u64 other := by
  induction bytes with
  | nil => exact fun _ _ _ _ => rfl
  | cons byte rest induction =>
    intro block start other disjoint
    simp only [List.length_cons] at disjoint
    rw [setBytes, induction _ _ (by omega), u64_setU8 block start byte (by omega)]

theorem u32_setWords (words : List UInt32) :
    ∀ (block : Block) (start index : Nat), start + words.length ≤ IDX_CNT_PER_INDIRECT_BLCOK →
      (block.setWords start words).u32 index =
        if start ≤ index then words.getD (index - start) (block.u32 index)
        else block.u32 index := by
  induction words with
  | nil =>
    intro block start index _
    simp [setWords]
  | cons word rest induction =>
    intro block start index fits
    simp only [List.length_cons] at fits
    rw [setWords, induction _ _ _ (by omega), u32_setU32 block word (by omega)]
    by_cases same : index = start
    · subst same
      simp
    · by_cases after : start + 1 ≤ index
      · have split : index - start = index - (start + 1) + 1 := by omega
        have atLeast : start ≤ index := by omega
        simp [after, atLeast, split, same]
      · have before : ¬ start ≤ index := by omega
        simp [after, before, same]

end Block

/-! ## Dinodes -/

def Ftype.toU32 : Ftype → UInt32
  | .UNUSE => 0
  | .REGULAR => 1
  | .DIRECTORY => 2
  | .CHAR => 3

/-- A value outside the enumeration equals none of the types the kernel tests for,
as `UNUSE` does. -/
def Ftype.ofU32 (value : UInt32) : Ftype :=
  if value = 1 then .REGULAR else if value = 2 then .DIRECTORY else if value = 3 then .CHAR
  else .UNUSE

@[simp] theorem Ftype.ofU32_toU32 (type : Ftype) : Ftype.ofU32 type.toU32 = type := by
  cases type <;> rfl

def Dinode.words (dinode : Dinode) : List UInt32 :=
  [dinode.type.toU32, dinode.dev, dinode.nlink, dinode.fsize] ++ List.ofFn dinode.iblock

theorem Dinode.length_words (dinode : Dinode) : dinode.words.length = 19 := by
  rw [Dinode.words, List.length_append, List.length_ofFn]
  rfl

/-- `DINODE_CNT_PER_BLOCK`: a dinode has 76 bytes. -/
def DINODE_CNT_PER_BLOCK : Nat := BSIZE / 76

namespace Block

def dinode (block : Block) (index : Nat) : Dinode where
  type := Ftype.ofU32 (block.u32 (19 * index))
  dev := block.u32 (19 * index + 1)
  nlink := block.u32 (19 * index + 2)
  fsize := block.u32 (19 * index + 3)
  iblock := fun entry => block.u32 (19 * index + 4 + entry)

def setDinode (block : Block) (index : Nat) (dinode : Dinode) : Block :=
  block.setWords (19 * index) dinode.words

theorem dinode_setDinode (block : Block) {index : Nat} (dinode : Dinode)
    (inBlock : index < DINODE_CNT_PER_BLOCK) (other : Nat) :
    (block.setDinode index dinode).dinode other =
      if other = index then dinode else block.dinode other := by
  simp only [DINODE_CNT_PER_BLOCK, BSIZE] at inBlock
  have fits : 19 * index + dinode.words.length ≤ IDX_CNT_PER_INDIRECT_BLCOK := by
    rw [dinode.length_words]
    simp only [IDX_CNT_PER_INDIRECT_BLCOK, BSIZE]
    omega
  have word := fun position => u32_setWords dinode.words block (19 * index) position fits
  split
  case isTrue same =>
    subst same
    have field : ∀ offset, offset < 19 →
        (block.setDinode other dinode).u32 (19 * other + offset) =
          dinode.words.getD offset 0 := by
      intro offset inWords
      have inList : offset < dinode.words.length := by rwa [dinode.length_words]
      rw [setDinode, word, if_pos (by omega)]
      rw [Nat.add_sub_cancel_left, List.getD_eq_getElem _ _ inList, List.getD_eq_getElem _ _ inList]
    have type := field 0 (by omega)
    have dev := field 1 (by omega)
    have nlink := field 2 (by omega)
    have fsize := field 3 (by omega)
    have iblock : ∀ entry : Fin (NDIRECT + NINDIRECT),
        (block.setDinode other dinode).u32 (19 * other + 4 + entry) = dinode.iblock entry := by
      intro entry
      have inRange : entry.val < NDIRECT + NINDIRECT := entry.isLt
      rw [Nat.add_assoc, field _ (by simp only [NDIRECT, NINDIRECT] at inRange; omega),
        Nat.add_comm 4 entry.val]
      simp [Dinode.words]
    simp only [Block.dinode, iblock]
    simp only [Nat.add_zero] at type
    simp [type, dev, nlink, fsize, Dinode.words]
  case isFalse different =>
    have keeps : ∀ offset, offset < 19 →
        (block.setDinode index dinode).u32 (19 * other + offset) =
          block.u32 (19 * other + offset) := by
      intro offset inWords
      rw [setDinode, word]
      split
      case isTrue after =>
        apply List.getD_eq_default
        rw [dinode.length_words]
        omega
      case isFalse => rfl
    simp only [Block.dinode]
    rw [← Nat.add_zero (19 * other), keeps 0 (by omega), Nat.add_zero, keeps 1 (by omega),
      keeps 2 (by omega), keeps 3 (by omega)]
    congr 1
    funext entry
    have inRange : entry.val < NDIRECT + NINDIRECT := entry.isLt
    simp only [NDIRECT, NINDIRECT] at inRange
    rw [Nat.add_assoc, keeps (4 + entry.val) (by omega)]

/-! ## Directory blocks

A block starts with a `u64` count in the place of entry 0; entry `j` is a `u32` inode
number and `DLENGTH` bytes of name. -/

def dentryMax : Nat := BSIZE / 32 - 1

def cnt (block : Block) : BitVec 64 := block.u64 0

def dentryInum (block : Block) (entry : Nat) : UInt32 := block.u32 (8 * entry)

def dentryName (block : Block) (entry index : Nat) : UInt8 := block.u8 (32 * entry + 4 + index)

def name (block : Block) (entry : Nat) : List UInt8 :=
  ((List.range DLENGTH).map (block.dentryName entry)).takeWhile (· ≠ 0)

/-- The slot is in use: `*dt->name != '\0'`. -/
def live (block : Block) (entry : Nat) : Bool := block.dentryName entry 0 != 0

/-- `dentry_name_set` copies up to and including the NUL, at most `DLENGTH` bytes. -/
def dentryNameSet (block : Block) (entry : Nat) (source : List UInt8) : Block :=
  block.setBytes (32 * entry + 4) ((source ++ [0]).take DLENGTH)

/-- The loop of `dentry_name_equal` from an index on; a string reads as NUL at its end. -/
def dentryNameEqualFrom (name : Nat → UInt8) (other : List UInt8) : Nat → Nat → Bool
  | 0, index => other.getD index 0 == 0
  | remaining + 1, index =>
    if name index ≠ other.getD index 0 then false
    else if name index = 0 then true
    else dentryNameEqualFrom name other remaining (index + 1)

def dentryNameEqual (block : Block) (entry : Nat) (other : List UInt8) : Bool :=
  dentryNameEqualFrom (block.dentryName entry) other DLENGTH 0

/-! ## Bitmap blocks -/

/-- The first `u64` of the block that is not all ones. -/
def openSection (block : Block) : Option Nat :=
  (List.range (BSIZE / 8)).find? fun sectionIndex => block.u64 sectionIndex != BitVec.allOnes 64

end Block

/-- The first clear bit of a `u64`. -/
def openBit (word : BitVec 64) : Option Nat :=
  (List.range 64).find? fun bit => word &&& (1#64 <<< bit) == 0#64

theorem openBit_eq_some {word : BitVec 64} {bit : Nat} (found : openBit word = some bit) :
    bit < 64 ∧ word.getLsbD bit = false ∧ ∀ lower < bit, word.getLsbD lower = true := by
  rcases List.find?_range_eq_some.mp found with ⟨isClear, inRange, lowerSet⟩
  have inWord : bit < 64 := List.mem_range.mp inRange
  refine ⟨inWord, (and_bit_eq_zero word inWord).mp (by simpa using isClear), ?_⟩
  intro lower isLower
  cases value : word.getLsbD lower with
  | true => rfl
  | false =>
    have isZero := (and_bit_eq_zero word (Nat.lt_trans isLower inWord)).mpr value
    have notZero := lowerSet lower isLower
    simp [isZero] at notZero

theorem openBit_ne_none {word : BitVec 64} (isOpen : word ≠ BitVec.allOnes 64) :
    openBit word ≠ none := by
  intro notFound
  apply isOpen
  apply BitVec.eq_of_getLsbD_eq
  intro bit inWord
  have notZero := List.find?_range_eq_none.mp notFound bit inWord
  cases value : word.getLsbD bit with
  | true => rw [BitVec.getLsbD_allOnes, decide_eq_true inWord]
  | false =>
    have isZero := (and_bit_eq_zero word inWord).mpr value
    simp [isZero] at notZero

namespace Block

variable {bit : Nat}

section
variable (block : Block)

theorem getLsbD_u64 (sectionIndex : Nat) (inWord : bit < 64) :
    (block.u64 sectionIndex).getLsbD bit = block.getLsbD (64 * sectionIndex + bit) := by
  rw [u64, getLsbD_get, decide_eq_true inWord, Bool.true_and]

theorem openSection_eq_some {block : Block} {sectionIndex : Nat}
    (found : block.openSection = some sectionIndex) :
    sectionIndex < BSIZE / 8 ∧ block.u64 sectionIndex ≠ BitVec.allOnes 64 ∧
      ∀ lower < 64 * sectionIndex, block.getLsbD lower = true := by
  rcases List.find?_range_eq_some.mp found with ⟨isOpen, inRange, lowerFull⟩
  refine ⟨List.mem_range.mp inRange, by simpa using isOpen, ?_⟩
  intro lower isLower
  have full : block.u64 (lower / 64) = BitVec.allOnes 64 := by
    simpa using lowerFull (lower / 64) (by omega)
  have bit := block.getLsbD_u64 (lower / 64) (show lower % 64 < 64 by omega)
  rw [full, Nat.div_add_mod, BitVec.getLsbD_allOnes] at bit
  rw [← bit]
  exact decide_eq_true (by omega)

theorem openSection_eq_none {block : Block} (full : block.openSection = none)
    (inBlock : bit < BIT_CNT_PER_BLOCK) : block.getLsbD bit = true := by
  simp only [BIT_CNT_PER_BLOCK, BSIZE] at inBlock
  have isFull : block.u64 (bit / 64) = BitVec.allOnes 64 := by
    simpa using List.find?_range_eq_none.mp full (bit / 64) (by simp only [BSIZE]; omega)
  have value := block.getLsbD_u64 (bit / 64) (show bit % 64 < 64 by omega)
  rw [isFull, Nat.div_add_mod, BitVec.getLsbD_allOnes] at value
  rw [← value]
  exact decide_eq_true (by omega)

theorem getLsbD_clear_u64 (inBlock : bit < BIT_CNT_PER_BLOCK) (index : Nat) :
    (block.setU64 (bit / 64) (block.u64 (bit / 64) &&& ~~~(1#64 <<< (bit % 64)))).getLsbD index =
      if index = bit then false else block.getLsbD index := by
  simp only [BIT_CNT_PER_BLOCK, BSIZE] at inBlock
  rw [setU64, u64, getLsbD_put_clear _ (Nat.mod_lt bit (by decide)) (by omega), Nat.div_add_mod]

theorem getLsbD_clear_u8 (inBlock : bit < BIT_CNT_PER_BLOCK) (index : Nat) :
    (block.setU8 (bit / 8) ⟨(block.u8 (bit / 8)).toBitVec &&& ~~~(1#8 <<< (bit % 8))⟩).getLsbD
        index = if index = bit then false else block.getLsbD index := by
  simp only [BIT_CNT_PER_BLOCK, BSIZE] at inBlock
  rw [setU8, u8, getLsbD_put_clear _ (Nat.mod_lt bit (by decide)) (by omega), Nat.div_add_mod]

theorem bit_u8 (bit : Nat) :
    ((block.u8 (bit / 8)).toBitVec &&& (1#8 <<< (bit % 8)) != 0#8) = block.getLsbD bit := by
  have inByte : bit % 8 < 8 := Nat.mod_lt bit (by decide)
  have value : (block.u8 (bit / 8)).toBitVec.getLsbD (bit % 8) = block.getLsbD bit := by
    rw [u8, getLsbD_get, decide_eq_true inByte, Bool.true_and, Nat.div_add_mod]
  cases isSet : block.getLsbD bit with
  | false =>
    rw [isSet] at value
    simp [(and_bit_eq_zero _ inByte).mpr value]
  | true =>
    rw [isSet] at value
    rw [bne_iff_ne]
    intro isZero
    rw [(and_bit_eq_zero _ inByte).mp isZero] at value
    cases value

end

end Block
end Tnix.Fs
