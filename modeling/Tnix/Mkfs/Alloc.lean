import Tnix.Config

/-! # The allocators of `mkfs.cc`

Counters are natural numbers: the tests stop them long before they could wrap around. -/

namespace Tnix.Mkfs

open Function

/-! ## Layout -/

def MAX_FILE_NUMBER : Nat := 8192 * 2

def DATA_BLOCK_NUMBER : Nat := 1024 * 1024

def DINODE_SIZE : Nat := 76

def DINODE_CNT_PER_BLOCK : Nat := BSIZE / DINODE_SIZE

def IMAP_START_BLOCKNO : Nat := 2

def IMAP_SIZE : Nat := MAX_FILE_NUMBER / 8

def DINODES_START_BLOCKNO : Nat := IMAP_START_BLOCKNO + IMAP_SIZE / BSIZE

def DINODES_SIZE : Nat := (MAX_FILE_NUMBER / DINODE_CNT_PER_BLOCK + 1) * BSIZE

def BMAP_START_BLOCKNO : Nat := DINODES_START_BLOCKNO + DINODES_SIZE / BSIZE

def BMAP_SIZE : Nat := DATA_BLOCK_NUMBER / 8

def MIN_DATA_BLOCKNO : Nat := BMAP_START_BLOCKNO + BMAP_SIZE / BSIZE

def MAX_DATA_BLOCKNO : Nat := MIN_DATA_BLOCKNO + DATA_BLOCK_NUMBER

/-- The offset of a dinode in `DINODES`. -/
def inumToDinode (inum : Nat) : Nat :=
  inum / DINODE_CNT_PER_BLOCK * BSIZE + inum % DINODE_CNT_PER_BLOCK * DINODE_SIZE

def dinodeToInum (offset : Nat) : Nat :=
  offset / BSIZE * DINODE_CNT_PER_BLOCK + offset % BSIZE / DINODE_SIZE

theorem dinodeToInum_inumToDinode (inum : Nat) : dinodeToInum (inumToDinode inum) = inum := by
  simp only [dinodeToInum, inumToDinode, DINODE_CNT_PER_BLOCK, DINODE_SIZE, BSIZE]
  omega

/-! ## Bitmaps -/

/-- `map[n / 8] |= 1U << (n % 8)`. -/
def setBit (map : Nat → BitVec 8) (n : Nat) : Nat → BitVec 8 :=
  update map (n / 8) (map (n / 8) ||| 1#8 <<< (n % 8))

def bitAt (map : Nat → BitVec 8) (k : Nat) : Bool := (map (k / 8)).getLsbD (k % 8)

theorem bitAt_setBit (map : Nat → BitVec 8) (n k : Nat) :
    bitAt (setBit map n) k = (bitAt map k || decide (k = n)) := by
  have bit : (1#8 <<< (n % 8)).getLsbD (k % 8) = decide (k % 8 = n % 8) := by
    rw [BitVec.getLsbD_shiftLeft, BitVec.getLsbD_one]
    have := Nat.mod_lt k (show 0 < 8 by decide)
    by_cases same : k % 8 = n % 8 <;> simp [same] <;> omega
  rw [bitAt, setBit]
  by_cases same : k / 8 = n / 8
  · have iff : k % 8 = n % 8 ↔ k = n := by omega
    rw [bitAt, same, update_self, BitVec.getLsbD_or, bit, decide_eq_decide.mpr iff]
  · have different : k ≠ n := fun equal => same (equal ▸ rfl)
    rw [update_of_ne same, ← bitAt, decide_eq_false different, Bool.or_false]

theorem bitAt_setBit_next {map : Nat → BitVec 8} {n : Nat}
    (bits : ∀ k, bitAt map k = decide (k < n)) (k : Nat) :
    bitAt (setBit map n) k = decide (k < n + 1) := by
  rw [bitAt_setBit, bits, ← Bool.decide_or, decide_eq_decide]
  omega

/-! ## Calls -/

/-- An access to `imap` or `bmap` at an index, or to the dinode at an offset. -/
inductive Access
  | imap (index : Nat)
  | bmap (index : Nat)
  | dinode (offset : Nat)

def Access.InRange : Access → Prop
  | .imap index => index < IMAP_SIZE
  | .bmap index => index < BMAP_SIZE
  | .dinode offset => offset + DINODE_SIZE ≤ DINODES_SIZE

/-- The variables of `mkfs`. The last three fields record what the calls have returned and
accessed. -/
structure Image where
  freeInum : Nat
  bfreeno : Nat
  imap : Nat → BitVec 8
  bmap : Nat → BitVec 8
  inums : List Nat
  blocks : List Nat
  accesses : List Access

/-- `none` is `exit(1)`. -/
def dinodeAlloc (image : Image) : Option Image :=
  if image.freeInum > MAX_FILE_NUMBER - 1 then none
  else
    let r := inumToDinode image.freeInum
    some { image with
      freeInum := image.freeInum + 1
      imap := setBit image.imap image.freeInum
      inums := image.inums ++ [dinodeToInum r]
      accesses := image.accesses ++ [.dinode r, .imap (image.freeInum / 8)] }

def blockAlloc (image : Image) : Option Image :=
  if image.bfreeno > MAX_DATA_BLOCKNO then none
  else
    let bit := image.bfreeno - MIN_DATA_BLOCKNO
    some { image with
      bfreeno := image.bfreeno + 1
      bmap := setBit image.bmap bit
      blocks := image.blocks ++ [image.bfreeno]
      accesses := image.accesses ++ [.bmap (bit / 8)] }

inductive Call
  | dinode
  | block
deriving DecidableEq

def call (image : Image) : Call → Option Image
  | .dinode => dinodeAlloc image
  | .block => blockAlloc image

def calls : Image → List Call → Option Image
  | image, [] => some image
  | image, next :: rest => (call image next).bind fun image => calls image rest

def start : Image := ⟨0, MIN_DATA_BLOCKNO, fun _ => 0, fun _ => 0, [], [], []⟩

/-- What has been returned is distinct, in range and what the maps say. -/
structure Sound (image : Image) : Prop where
  inums_nodup : image.inums.Nodup
  inums_le : ∀ inum ∈ image.inums, inum ≤ MAX_FILE_NUMBER - 1
  blocks_nodup : image.blocks.Nodup
  blocks_range : ∀ blockno ∈ image.blocks,
    MIN_DATA_BLOCKNO ≤ blockno ∧ blockno < MAX_DATA_BLOCKNO
  accesses : ∀ access ∈ image.accesses, access.InRange
  imap : ∀ k < 8 * IMAP_SIZE, bitAt image.imap k = true ↔ k ∈ image.inums
  bmap : ∀ k < 8 * BMAP_SIZE,
    bitAt image.bmap k = true ↔ MIN_DATA_BLOCKNO + k ∈ image.blocks

/-! ## Runs -/

/-- The image after a number of calls of each kind. -/
structure After (inums blocks : Nat) (image : Image) : Prop where
  freeInum : image.freeInum = inums
  bfreeno : image.bfreeno = MIN_DATA_BLOCKNO + blocks
  inums_le : inums ≤ MAX_FILE_NUMBER
  imap : ∀ k, bitAt image.imap k = decide (k < inums)
  bmap : ∀ k, bitAt image.bmap k = decide (k < blocks)
  inums_eq : image.inums = List.range inums
  blocks_eq : image.blocks = (List.range blocks).map (MIN_DATA_BLOCKNO + ·)
  accesses : ∀ access ∈ image.accesses,
    (∃ i < inums, access = .dinode (inumToDinode i) ∨ access = .imap (i / 8)) ∨
      ∃ k < blocks, access = .bmap (k / 8)

variable {inums blocks : Nat} {image final : Image}

theorem After.start : After 0 0 start where
  freeInum := rfl
  bfreeno := rfl
  inums_le := Nat.zero_le _
  imap := fun _ => by simp [Mkfs.start, bitAt]
  bmap := fun _ => by simp [Mkfs.start, bitAt]
  inums_eq := rfl
  blocks_eq := rfl
  accesses := fun _ member => by cases member

section
variable (after : After inums blocks image)
include after

theorem After.dinodeAlloc
    (stepped : Mkfs.dinodeAlloc image = some final) : After (inums + 1) blocks final := by
  rw [Mkfs.dinodeAlloc, after.freeInum, Option.ite_none_left_eq_some] at stepped
  rcases stepped with ⟨notFull, ⟨⟩⟩
  refine { after with
    freeInum := rfl
    inums_le := ?_
    imap := bitAt_setBit_next after.imap
    inums_eq := ?_
    accesses := fun access member => ?_ }
  · simp only [MAX_FILE_NUMBER] at notFull ⊢
    omega
  · rw [after.inums_eq, dinodeToInum_inumToDinode, List.range_succ]
  · rcases List.mem_append.mp member with old | new
    · refine (after.accesses access old).imp_left ?_
      rintro ⟨i, below, isAt⟩
      exact ⟨i, Nat.lt_succ_of_lt below, isAt⟩
    · rw [List.mem_cons, List.mem_singleton] at new
      exact .inl ⟨inums, Nat.lt_succ_self _, new⟩

theorem After.blockAlloc
    (stepped : Mkfs.blockAlloc image = some final) : After inums (blocks + 1) final := by
  rw [Mkfs.blockAlloc, after.bfreeno, Option.ite_none_left_eq_some, Nat.add_sub_cancel_left]
    at stepped
  rcases stepped with ⟨_, ⟨⟩⟩
  refine { after with
    bfreeno := rfl
    bmap := bitAt_setBit_next after.bmap
    blocks_eq := ?_
    accesses := fun access member => ?_ }
  · rw [after.blocks_eq, List.range_succ, List.map_append]
    rfl
  · rcases List.mem_append.mp member with old | new
    · refine (after.accesses access old).imp_right ?_
      rintro ⟨k, below, isAt⟩
      exact ⟨k, Nat.lt_succ_of_lt below, isAt⟩
    · exact .inr ⟨blocks, Nat.lt_succ_self _, List.mem_singleton.mp new⟩

theorem After.calls {made : List Call} (ran : Mkfs.calls image made = some final) :
    After (inums + made.count .dinode) (blocks + made.count .block) final := by
  induction made generalizing inums blocks image with
  | nil =>
    cases ran
    exact after
  | cons next rest induction =>
    rcases Option.bind_eq_some_iff.mp ran with ⟨middle, stepped, ranRest⟩
    cases next with
    | dinode =>
      have final := induction (after.dinodeAlloc stepped) ranRest
      rw [Nat.add_right_comm] at final
      simpa [Nat.add_assoc] using final
    | block =>
      have final := induction (after.blockAlloc stepped) ranRest
      rw [Nat.add_right_comm blocks] at final
      simpa [Nat.add_assoc] using final

/-- The test lets one block more pass than there are. -/
theorem After.sound_iff : Sound image ↔ blocks ≤ DATA_BLOCK_NUMBER := by
  constructor
  · intro sound
    by_contra more
    have last : MAX_DATA_BLOCKNO ∈ image.blocks := by
      rw [after.blocks_eq]
      exact List.mem_map.mpr ⟨DATA_BLOCK_NUMBER, List.mem_range.mpr (Nat.not_le.mp more), rfl⟩
    exact Nat.lt_irrefl _ (sound.blocks_range _ last).2
  · intro few
    have blocksMem (k : Nat) : MIN_DATA_BLOCKNO + k ∈ image.blocks ↔ k < blocks := by
      rw [after.blocks_eq, List.mem_map_of_injective (fun _ _ => Nat.add_left_cancel), List.mem_range]
    refine ⟨?_, ?_, ?_, ?_, ?_, ?_, ?_⟩
    · exact after.inums_eq ▸ List.nodup_range
    · intro inum member
      rw [after.inums_eq, List.mem_range] at member
      exact Nat.le_sub_one_of_lt (Nat.lt_of_lt_of_le member after.inums_le)
    · rw [after.blocks_eq]
      exact List.nodup_range.map (fun _ _ => Nat.add_left_cancel)
    · intro blockno member
      rw [after.blocks_eq] at member
      rcases List.mem_map.mp member with ⟨k, below, rfl⟩
      rw [List.mem_range] at below
      simp only [MAX_DATA_BLOCKNO]
      omega
    · intro access member
      have inums_le := after.inums_le
      simp only [MAX_FILE_NUMBER, DATA_BLOCK_NUMBER] at inums_le few
      rcases after.accesses access member with ⟨i, below, rfl | rfl⟩ | ⟨k, below, rfl⟩
      · simp only [Access.InRange, inumToDinode, DINODES_SIZE, DINODE_CNT_PER_BLOCK, DINODE_SIZE,
          BSIZE, MAX_FILE_NUMBER]
        omega
      · simp only [Access.InRange, IMAP_SIZE, MAX_FILE_NUMBER]
        omega
      · simp only [Access.InRange, BMAP_SIZE, DATA_BLOCK_NUMBER]
        omega
    · intro k _
      rw [after.imap, after.inums_eq, List.mem_range, decide_eq_true_iff]
    · intro k _
      rw [after.bmap, blocksMem, decide_eq_true_iff]

end

theorem alloc_sound_iff (made : List Call) (final : Image) (ran : calls start made = some final) :
    Sound final ↔ made.count .block ≤ DATA_BLOCK_NUMBER := by
  have after := After.start.calls ran
  rw [Nat.zero_add, Nat.zero_add] at after
  exact after.sound_iff

theorem alloc_sound_one : ∃ final, calls start [.dinode, .block] = some final ∧ Sound final :=
  ⟨_, rfl, (alloc_sound_iff [.dinode, .block] _ rfl).mpr (by decide)⟩

theorem After.calls_block (after : After inums blocks image) {count : Nat}
    (few : blocks + count ≤ DATA_BLOCK_NUMBER + 1) :
    ∃ final, Mkfs.calls image (List.replicate count .block) = some final := by
  induction count generalizing blocks image with
  | zero => exact ⟨image, rfl⟩
  | succ count induction =>
    have hasRoom : ¬image.bfreeno > MAX_DATA_BLOCKNO := by
      rw [after.bfreeno]
      simp only [MAX_DATA_BLOCKNO]
      omega
    have stepped : Mkfs.blockAlloc image = some _ := if_neg hasRoom
    rcases induction (after.blockAlloc stepped) (by omega) with ⟨final, ran⟩
    refine ⟨final, ?_⟩
    rw [List.replicate_succ, Mkfs.calls, call, stepped]
    exact ran

/-- One call more than there are data blocks does not exit; it returns `MAX_DATA_BLOCKNO` and
sets a bit behind `bmap`. -/
theorem block_behind : ∃ final,
    calls start (List.replicate (DATA_BLOCK_NUMBER + 1) .block) = some final ∧
      MAX_DATA_BLOCKNO ∈ final.blocks ∧ ¬Sound final := by
  rcases After.start.calls_block (Nat.le_of_eq (Nat.zero_add _)) with ⟨final, ran⟩
  have after := After.start.calls ran
  rw [Nat.zero_add, Nat.zero_add, List.count_replicate_self] at after
  refine ⟨final, ran, ?_, fun sound => Nat.not_succ_le_self _ (after.sound_iff.mp sound)⟩
  rw [after.blocks_eq]
  exact List.mem_map.mpr ⟨_, List.mem_range.mpr (Nat.lt_succ_self _), rfl⟩

end Tnix.Mkfs
