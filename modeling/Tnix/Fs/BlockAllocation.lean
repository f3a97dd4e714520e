import Tnix.Fs.Returns

/-! # Allocation of blocks

`balloc` and `bfree` work on the bits of the block map: the bit `p` is that of the block
`sb->blocks + p`. -/

namespace Tnix.Fs

open Program
variable {Task : Type} {mount : Mount Task} {disk disk' : Nat → Block} {base n : Nat}

/-! ## Maps -/

theorem MapWrite.restores {value : Bool} {first : Nat → Block}
    (wrote : MapWrite disk first base n value)
    (back : MapWrite first disk' base n (mapBit disk base n)) : disk' = disk := by
  funext blockno
  by_cases touched : blockno = base + n / BIT_CNT_PER_BLOCK
  · subst touched
    apply BitVec.eq_of_getLsbD_eq
    intro index inBlock
    have same : mapBit disk' base (n / BIT_CNT_PER_BLOCK * BIT_CNT_PER_BLOCK + index) =
        mapBit disk base (n / BIT_CNT_PER_BLOCK * BIT_CNT_PER_BLOCK + index) := by
      rw [back.bit, wrote.bit]
      split
      case isTrue isBit => rw [isBit]
      case isFalse => rfl
    rwa [mapBit_add inBlock, mapBit_add inBlock, Nat.add_comm _ base] at same
  · rw [back.elsewhere blockno touched, wrote.elsewhere blockno touched]

theorem Block.openSection_of_full {block : Block}
    (full : ∀ bit < BIT_CNT_PER_BLOCK, block.getLsbD bit = true) : block.openSection = none := by
  cases found : block.openSection with
  | none => rfl
  | some j =>
    rcases Block.openSection_eq_some found with ⟨inBlock, isOpen, _⟩
    refine absurd (BitVec.eq_of_getLsbD_eq ?_) isOpen
    intro bit inWord
    rw [Block.getLsbD_u64 _ _ inWord, BitVec.getLsbD_allOnes, decide_eq_true inWord]
    apply full
    simp only [BIT_CNT_PER_BLOCK, BSIZE] at inBlock ⊢
    omega

theorem mapAllocFrom_exhausted (readNth : Nat → FsM Task IoBuf) (exhausted : String) {limit : Nat}
    (reads : ∀ i, base + i < limit → readNth i mount = bread (i + base) mount)
    (unlocked : Unlocked mount.held base limit) (remaining : Nat) :
    ∀ start, base + (start + remaining) ≤ limit →
      (∀ n, start * BIT_CNT_PER_BLOCK ≤ n → n < (start + remaining) * BIT_CNT_PER_BLOCK →
        mapBit mount.disk base n = true) →
      mapAllocFrom readNth exhausted remaining start mount = .error (.panic exhausted) := by
  induction remaining with
  | zero =>
    intro start _ _
    rfl
  | succ remaining induction =>
    intro start inMap allSet
    have full : Block.openSection (mount.disk (start + base)) = none := by
      apply Block.openSection_of_full
      intro bit inBlock
      have isSet := allSet (start * BIT_CNT_PER_BLOCK + bit) (Nat.le_add_right _ _) (by
        simp only [BIT_CNT_PER_BLOCK, BSIZE] at inBlock ⊢
        omega)
      rwa [mapBit_add inBlock] at isSet
    have opens := bread_eq
      ⟨unlocked.notHeld (start + base) (by omega) (by omega), unlocked.few⟩
    rw [mapAllocFrom, bind_eq, reads start (by omega), opens]
    simp only [full]
    rw [bind_eq, @brelse_head _ _ ⟨start + base, mount.disk (start + base)⟩ _ rfl]
    refine induction (start + 1) (by omega) fun n atLeast below => allSet n ?_ ?_
    · exact Nat.le_trans (Nat.mul_le_mul_right _ (Nat.le_succ start)) atLeast
    · rwa [Nat.add_right_comm] at below

/-! ## One call -/

def Mount.bmapBit (mount : Mount Task) (p : Nat) : Bool := mapBit mount.disk mount.sb.bmap p

def BmapWritten (mount final : Mount Task) (p : Nat) (value : Bool) : Prop :=
  ∃ disk, final = { mount with disk := disk } ∧
    MapWrite mount.disk disk mount.sb.bmap p value

/-- `balloc` returns the block of the least clear bit and sets the bit, or it panics and
there is no clear bit. -/
def BallocExact (mount : Mount Task) : Prop :=
  YieldsOr balloc mount
    (fun fault => fault = .panic "balloc: space exhausted" ∧
      ∀ p < mount.sb.bmapBits, mount.bmapBit p = true)
    (fun blockno final => ∃ p < mount.sb.bmapBits, blockno.toNat = mount.sb.blocks + p ∧
      mount.bmapBit p = false ∧ (∀ lower < p, mount.bmapBit lower = true) ∧
      BmapWritten mount final p true)

/-- `bfree` clears the bit of the block, or it panics and the bit was clear. -/
def BfreeExact (mount : Mount Task) (blockno : UInt32) (p : Nat) : Prop :=
  YieldsOr (bfree blockno) mount
    (fun fault => fault = .panic "bfree: double free" ∧ mount.bmapBit p = false)
    (fun _ final => mount.bmapBit p = true ∧ BmapWritten mount final p false)

section
variable (numbered : mount.sb.Numbered)
  (unlocked : Unlocked mount.held mount.sb.bmap mount.sb.blocks)
include numbered unlocked

theorem ballocExact : BallocExact mount := by
  by_cases clear : ∃ p < mount.sb.bmapBits, mount.bmapBit p = false
  · have returns := balloc_returns numbered unlocked clear
    rcases returns.ensures (balloc_marks numbered) with
      ⟨blockno, _, ran, sameHeld, p, disk, held, rfl, inMap, number, isClear, lowerSet, wrote⟩
    refine yieldsOr_of_ok ran ⟨p, inMap, number, isClear, lowerSet, disk, ?_, wrote⟩
    rw [← sameHeld]
  · have allSet : ∀ p < mount.sb.bmapBits, mount.bmapBit p = true := by
      intro p inMap
      by_contra isClear
      exact clear ⟨p, inMap, Bool.eq_false_of_not_eq_true isClear⟩
    have ordered := numbered.ordered
    have stops := mapAllocFrom_exhausted readNthBmap "balloc: space exhausted"
      (fun i inMap => readNthBmap_eq (by omega)) unlocked (mount.sb.blocks - mount.sb.bmap) 0
      (by omega) (fun n _ below => allSet n (by rwa [Nat.zero_add] at below))
    refine yieldsOr_of_error ?_ ⟨rfl, allSet⟩
    rw [balloc, bind_eq]
    show (mapAllocFrom readNthBmap "balloc: space exhausted"
      (mount.sb.blocks - mount.sb.bmap) 0 >>= _) mount = _
    rw [bind_eq, stops]

omit numbered in
theorem bfreeExact {blockno : UInt32} {p : Nat} (inMap : p < mount.sb.bmapBits)
    (number : blockno.toNat = mount.sb.blocks + p) : BfreeExact mount blockno p := by
  have offset : (blockno - UInt32.ofNat mount.sb.blocks).toNat = p := by
    have small := blockno.toNat_lt
    have blocks : (UInt32.ofNat mount.sb.blocks).toNat = mount.sb.blocks := by
      rw [UInt32.toNat_ofNat', Nat.mod_eq_of_lt (by omega)]
    rw [UInt32.toNat_sub_of_le, number, blocks, Nat.add_sub_cancel_left]
    rw [UInt32.le_iff_toNat_le, number, blocks]
    exact Nat.le_add_right _ _
  have inBlock : p % BIT_CNT_PER_BLOCK < BIT_CNT_PER_BLOCK := Nat.mod_lt p (by decide)
  have inRegion : p / BIT_CNT_PER_BLOCK < mount.sb.blocks - mount.sb.bmap :=
    (Nat.div_lt_iff_lt_mul (by decide)).mpr inMap
  have opens := (readNthBmap_eq inRegion).trans
    (bread_eq ⟨unlocked.notHeld _ (Nat.le_add_left _ _) (Nat.lt_sub_iff_add_lt.mp inRegion),
      unlocked.few⟩)
  rw [BfreeExact, bfree]
  refine yieldsOr_bind_of_ok rfl ?_
  simp only [offset]
  refine yieldsOr_bind_of_ok opens ?_
  have isBit : (Block.u64 (mount.disk (p / BIT_CNT_PER_BLOCK + mount.sb.bmap))
      (p % BIT_CNT_PER_BLOCK / 64) &&& 1#64 <<< (p % BIT_CNT_PER_BLOCK % 64) = 0#64) ↔
      mount.bmapBit p = false := by
    rw [BitField.and_bit_eq_zero _ (Nat.mod_lt _ (by decide)),
      Block.getLsbD_u64 _ _ (Nat.mod_lt _ (by decide)), Nat.div_add_mod, Mount.bmapBit, mapBit,
      Nat.add_comm]
  simp only
  split
  case isTrue isZero => exact yieldsOr_of_error rfl ⟨rfl, isBit.mp isZero⟩
  case isFalse nonzero =>
    have isSet : mount.bmapBit p = true := by
      rw [isBit] at nonzero
      exact Bool.eq_true_of_not_eq_false nonzero
    have place : p / BIT_CNT_PER_BLOCK * BIT_CNT_PER_BLOCK + p % BIT_CNT_PER_BLOCK = p := by
      rw [Nat.mul_comm]
      exact Nat.div_add_mod p BIT_CNT_PER_BLOCK
    have wrote := MapWrite.of_bit (p / BIT_CNT_PER_BLOCK) (p % BIT_CNT_PER_BLOCK) inBlock
      (Block.getLsbD_clear_u64 (mount.disk (mount.sb.bmap + p / BIT_CNT_PER_BLOCK)) inBlock)
    rw [place] at wrote
    refine yieldsOr_bind_of_ok (if_pos List.mem_cons_self) ?_
    refine yieldsOr_of_ok (brelse_head rfl) ⟨isSet, _, rfl, ?_⟩
    rw [Nat.add_comm (p / BIT_CNT_PER_BLOCK)]
    exact wrote

end

theorem bfree_inMap (numbered : mount.sb.Numbered) {blockno : UInt32} {result : Unit}
    {final : Mount Task} (ran : bfree blockno mount = .ok (result, final)) :
    ∃ p < mount.sb.bmapBits, blockno.toNat = mount.sb.blocks + p := by
  have returned : Ensures (bfree blockno) mount fun _ _ =>
      (blockno - UInt32.ofNat mount.sb.blocks).toNat / BIT_CNT_PER_BLOCK <
        mount.sb.blocks - mount.sb.bmap := by
    simp only [bfree, ensures_bind, ensures_get, ensures_readNthBmap]
    exact fun inMap _ _ _ _ _ _ => inMap
  have inMap := (Nat.div_lt_iff_lt_mul (by decide)).mp (returned result final ran)
  have fits := numbered.fits
  have number := UInt32.toNat_sub blockno (UInt32.ofNat mount.sb.blocks)
  rw [UInt32.toNat_ofNat'] at number
  rw [← Superblock.bmapBits] at inMap
  refine ⟨_, inMap, ?_⟩
  have small := blockno.toNat_lt
  omega

/-- What the calls do with the block map as it is. -/
structure BlockCallsExact (mount : Mount Task) : Prop where
  balloc : BallocExact mount
  bfree : ∀ p < mount.sb.bmapBits, BfreeExact mount (UInt32.ofNat (mount.sb.blocks + p)) p
  /-- `bfree` of the block that `balloc` returned undoes the call. -/
  undo : ∀ blockno final, Fs.balloc mount = .ok (blockno, final) →
    Fs.bfree blockno final = .ok ((), mount)

theorem blockCallsExact (numbered : mount.sb.Numbered)
    (unlocked : Unlocked mount.held mount.sb.bmap mount.sb.blocks) : BlockCallsExact mount := by
  refine ⟨ballocExact numbered unlocked, ?_, ?_⟩
  · intro p inMap
    have fits := numbered.fits
    refine bfreeExact unlocked inMap ?_
    rw [UInt32.toNat_ofNat', Nat.mod_eq_of_lt (by omega)]
  · intro blockno final ran
    have allocated := (ballocExact numbered unlocked).ensures blockno final ran
    rcases allocated with ⟨p, inMap, number, isClear, _, disk, rfl, wrote⟩
    have frees := @bfreeExact _ { mount with disk := disk } unlocked _ p inMap number
    have isSet : ({ mount with disk := disk } : Mount Task).bmapBit p = true :=
      (wrote.bit p).trans (if_pos rfl)
    rcases frees.yields (fun _ stopped => Bool.false_ne_true (stopped.2.symm.trans isSet)) with
      ⟨_, final, ranFree, _, disk', rfl, back⟩
    have same : disk' = mount.disk := wrote.restores (by rwa [show mapBit _ _ _ = _ from isClear])
    rw [ranFree, same]

/-! ## Sequences of calls -/

/-- `out` are the blocks that `balloc` returned and that were not freed since. -/
structure BlockState (Task : Type) where
  mount : Mount Task
  out : List UInt32

inductive BlockLabel
  | balloc
  | bfree (blockno : UInt32)

def blockMachine (Task : Type) : Machine (BlockState Task) BlockLabel where
  Initial state := state.mount.sb.Numbered ∧
    Unlocked state.mount.held state.mount.sb.bmap state.mount.sb.blocks ∧ state.out = []
  step state label :=
    match label with
    | .balloc =>
      match Fs.balloc state.mount with
      | .ok (blockno, mount) => some ⟨mount, blockno :: state.out⟩
      | .error _ => none
    | .bfree blockno =>
      match Fs.bfree blockno state.mount with
      | .ok (_, mount) => some ⟨mount, state.out.filter (· ≠ blockno)⟩
      | .error _ => none

/-- The blocks that are out are distinct, and their bits are set. -/
structure BlocksOut (state : BlockState Task) : Prop where
  numbered : state.mount.sb.Numbered
  unlocked : Unlocked state.mount.held state.mount.sb.bmap state.mount.sb.blocks
  distinct : state.out.Nodup
  marked : ∀ blockno ∈ state.out, ∃ p < state.mount.sb.bmapBits,
    blockno.toNat = state.mount.sb.blocks + p ∧ state.mount.bmapBit p = true

namespace BlocksOut

variable {state : BlockState Task}

theorem balloc (blocksOut : BlocksOut state) {blockno : UInt32} {final : Mount Task}
    (ran : Fs.balloc state.mount = .ok (blockno, final)) :
    BlocksOut ⟨final, blockno :: state.out⟩ := by
  have exactly := ballocExact blocksOut.numbered blocksOut.unlocked
  rcases exactly.ensures blockno final ran with ⟨p, inMap, number, isClear, _, disk, rfl, wrote⟩
  refine ⟨blocksOut.numbered, blocksOut.unlocked, List.nodup_cons.mpr ⟨?_, blocksOut.distinct⟩, ?_⟩
  · intro isOut
    rcases blocksOut.marked blockno isOut with ⟨q, _, sameNumber, isSet⟩
    have same : q = p := by omega
    rw [same, isClear] at isSet
    cases isSet
  · intro other isOut
    rcases List.mem_cons.mp isOut with rfl | wasOut
    · exact ⟨p, inMap, number, (wrote.bit p).trans (if_pos rfl)⟩
    · rcases blocksOut.marked other wasOut with ⟨q, inside, itsNumber, isSet⟩
      refine ⟨q, inside, itsNumber, (wrote.bit q).trans ?_⟩
      split
      · rfl
      · exact isSet

theorem bfree (blocksOut : BlocksOut state) {blockno : UInt32} {result : Unit}
    {final : Mount Task} (ran : Fs.bfree blockno state.mount = .ok (result, final)) :
    BlocksOut ⟨final, state.out.filter (· ≠ blockno)⟩ := by
  rcases bfree_inMap blocksOut.numbered ran with ⟨p, inMap, number⟩
  have exactly := bfreeExact blocksOut.unlocked inMap number
  rcases exactly.ensures result final ran with ⟨_, disk, rfl, wrote⟩
  refine ⟨blocksOut.numbered, blocksOut.unlocked, blocksOut.distinct.filter _, ?_⟩
  intro other isOut
  rcases List.mem_filter.mp isOut with ⟨wasOut, different⟩
  rcases blocksOut.marked other wasOut with ⟨q, inside, itsNumber, isSet⟩
  have notFreed : q ≠ p := by
    rintro rfl
    have same : other = blockno := UInt32.toNat_inj.mp (itsNumber.trans number.symm)
    simp [same] at different
  exact ⟨q, inside, itsNumber, (wrote.bit q).trans ((if_neg notFreed).trans isSet)⟩

end BlocksOut

theorem blocksOut_of_reachable {state : BlockState Task}
    (reached : (blockMachine Task).Reachable state) : BlocksOut state := by
  refine reached.invariant BlocksOut ?_ ?_
  · rintro ⟨mount, out⟩ ⟨numbered, unlocked, rfl⟩
    exact ⟨numbered, unlocked, List.nodup_nil, fun _ isOut => absurd isOut List.not_mem_nil⟩
  · intro state label next blocksOut _ stepped
    cases label with
    | balloc =>
      simp only [blockMachine] at stepped
      split at stepped
      case h_1 blockno final ran =>
        cases stepped
        exact blocksOut.balloc ran
      case h_2 => cases stepped
    | bfree blockno =>
      simp only [blockMachine] at stepped
      split at stepped
      case h_1 result final ran =>
        cases stepped
        exact blocksOut.bfree ran
      case h_2 => cases stepped

/-- Where every block has a number, `balloc` and `bfree` are exact and undo each other, and
no block is handed out again before it is freed. -/
theorem block_allocation (Task : Type) :
    (∀ mount : Mount Task, mount.sb.Numbered →
      Unlocked mount.held mount.sb.bmap mount.sb.blocks → BlockCallsExact mount) ∧
    ∀ state, (blockMachine Task).Reachable state → state.out.Nodup :=
  ⟨fun _ => blockCallsExact, fun _ reached => (blocksOut_of_reachable reached).distinct⟩

def oneBlockMap (bmap : Nat) : Mount Unit where
  sb := ⟨1, 2, bmap, bmap + 1⟩
  disk blockno := if blockno = bmap then 1 else 0
  icache _ := ⟨Dinode.blank, none, 0, 0⟩
  tasks _ := none
  files _ := .zero
  pipes _ := ⟨⟨0, 0, fun _ => 0⟩, 0⟩
  devsw _ := false
  held := []

theorem block_allocation_oneBlockMap : BlockCallsExact (oneBlockMap 700) ∧
    ∃ state, (blockMachine Unit).Reachable state ∧ state.out = [702] ∧ state.out.Nodup := by
  have both := block_allocation Unit
  have numbered : (oneBlockMap 700).sb.Numbered := ⟨by decide, by decide⟩
  have unlocked : Unlocked (oneBlockMap 700).held (oneBlockMap 700).sb.bmap
      (oneBlockMap 700).sb.blocks := unlocked_nil _ _
  refine ⟨both.1 (oneBlockMap 700) numbered unlocked, ?_⟩
  have steps : ((blockMachine Unit).step ⟨oneBlockMap 700, []⟩ .balloc).any
      (fun state => state.out = [702]) = true := by decide +kernel
  rcases (Option.any_eq_true _ _).mp steps with ⟨state, stepped, isOut⟩
  have start : (blockMachine Unit).Reachable ⟨oneBlockMap 700, []⟩ :=
    .initial ⟨numbered, unlocked, rfl⟩
  have reached := Machine.Reaches.step start trivial stepped
  exact ⟨state, reached, of_decide_eq_true isOut, both.2 state reached⟩

/-- With the data blocks at the end of the numbers `balloc` returns 0 for the bit 1. -/
theorem balloc_wraps :
    (oneBlockMap (2 ^ 32 - 2)).bmapBit 0 = true ∧ (oneBlockMap (2 ^ 32 - 2)).bmapBit 1 = false ∧
    (balloc (oneBlockMap (2 ^ 32 - 2))).map Prod.fst = .ok 0 ∧
    (0 : UInt32).toNat ≠ (oneBlockMap (2 ^ 32 - 2)).sb.blocks + 1 := by
  decide +kernel

end Tnix.Fs
