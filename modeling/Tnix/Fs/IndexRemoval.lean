import Tnix.Foundation.Terminated
import Tnix.Fs.TreeRelease

/-! # Removing a block from the list

`idx_remove` closes the gap that a block leaves in the list of blocks of a directory. The
loop over the index blocks clears each one after it has written it, so that only lists
come out right for which that does not matter. -/

namespace Tnix.Fs

open Function Program Mount Terminated
variable {Task : Type} {mount : Mount Task} {slot : Fin NINODE}

/-! ## Shifting the pointers of the inode -/

/-- The pointers from `first` on are those one place later, up to `limit`. -/
def Dinode.shift (di : Dinode) (first limit : Nat) : Dinode :=
  { di with iblock := fun e =>
    if first ≤ e.val ∧ e.val < limit then di.pointer (e.val + 1) else di.iblock e }

theorem Dinode.pointer_shift (di : Dinode) {first limit : Nat} (inRange : limit < NDIRECT + NINDIRECT)
    (e : Nat) :
    (di.shift first limit).pointer e =
      if first ≤ e ∧ e < limit then di.pointer (e + 1) else di.pointer e := by
  rw [pointer]
  split
  case isTrue inside =>
    simp only [shift]
    split
    case isTrue => rfl
    case isFalse => rw [pointer, dif_pos inside]
  case isFalse outside =>
    rw [if_neg (by omega), pointer, dif_neg outside]

theorem Dinode.shift_self (di : Dinode) (first : Nat) : di.shift first first = di := by
  have empty : ∀ e : Nat, ¬ (first ≤ e ∧ e < first) := by omega
  simp only [shift, empty, if_false]

theorem Dinode.shift_setPointer (di : Dinode) {first limit : Nat} (below : first < limit)
    (inRange : limit < NDIRECT + NINDIRECT) :
    (di.setPointer first (di.pointer (first + 1))).shift (first + 1) limit =
      di.shift first limit := by
  have inArray : first < NDIRECT + NINDIRECT := by omega
  rw [setPointer, dif_pos inArray]
  simp only [shift, mk.injEq, true_and]
  funext e
  by_cases here : e.val = first
  · rw [if_neg (by omega), if_pos (by omega), here, show e = ⟨first, inArray⟩ from Fin.ext here,
      update_self]
  · have different : e ≠ ⟨first, inArray⟩ := fun same => here (congrArg Fin.val same)
    have range : (first + 1 ≤ e.val ∧ e.val < limit) ↔ (first ≤ e.val ∧ e.val < limit) := by omega
    rw [update_of_ne different]
    simp only [range]
    split
    case isTrue inside =>
      have later : e.val + 1 < NDIRECT + NINDIRECT := by omega
      have apart : (⟨e.val + 1, later⟩ : Fin (NDIRECT + NINDIRECT)) ≠ ⟨first, inArray⟩ := by
        intro same
        have := congrArg Fin.val same
        simp only at this
        omega
      simp only [pointer, dif_pos later]
      exact update_of_ne apart _ _
    case isFalse => rfl

theorem shiftIblockFrom_yields (remaining : Nat) : ∀ (j : Nat) (mount : Mount Task),
    j + remaining < NDIRECT + NINDIRECT →
    Yields (shiftIblockFrom slot remaining j) mount fun _ final =>
      final = mount.withDi slot ((mount.icache slot).di.shift j (j + remaining)) := by
  induction remaining with
  | zero =>
    intro j mount _
    rw [shiftIblockFrom, yields_pure, Nat.add_zero, Dinode.shift_self, withDi_self]
  | succ remaining induction =>
    intro j mount inRange
    rw [shiftIblockFrom, yields_bind, yields_iblockAt]
    refine ⟨by omega, ?_⟩
    rw [yields_bind, yields_setIblock]
    refine ⟨by omega, (induction (j + 1) _ (by omega)).mono ?_⟩
    rintro _ _ rfl
    have next : j + 1 + remaining = j + (remaining + 1) := by omega
    simp only [update_self, next]
    rw [Dinode.shift_setPointer _ (by omega) inRange]
    exact withDi_withDi mount slot _ _

/-! ## The loop over the index blocks -/

theorem shiftIndexFrom_clears (remaining : Nat) : ∀ (j k : Nat) (mount : Mount Task),
    Ensures (shiftIndexFrom slot remaining j k) mount fun _ final => final.icache = mount.icache ∧
      (∀ blockno, mount.disk blockno = 0 → final.disk blockno = 0) ∧
      (0 < remaining → (mount.icache slot).di.pointer j ≠ 0 →
        final.disk ((mount.icache slot).di.pointer j).toNat = 0) := by
  induction remaining with
  | zero =>
    intro j k mount
    rw [shiftIndexFrom, ensures_pure]
    exact ⟨rfl, fun _ => id, fun positive => absurd positive (Nat.lt_irrefl 0)⟩
  | succ remaining induction =>
    intro j k mount
    rw [shiftIndexFrom, ensures_bind, ensures_iblockAt]
    intro inRange
    split
    case isTrue isZero =>
      rw [ensures_pure]
      exact ⟨rfl, fun _ => id, fun _ nonzero => absurd isZero nonzero⟩
    case isFalse nonzero =>
      generalize (mount.icache slot).di.pointer j = index at nonzero ⊢
      rw [ensures_bind, ensures_bread]
      intro _ _
      -- What is written first does not matter: `bzero` follows.
      have rest : ∀ (data : Block) (state : Mount Task), state.icache = mount.icache →
          state.disk = mount.disk →
          Ensures (do
            bwrite { blockno := index.toNat, data := data }
            bzero { blockno := index.toNat, data := mount.disk index.toNat }
            brelse { blockno := index.toNat, data := mount.disk index.toNat }
            shiftIndexFrom slot remaining (j + 1) 0) state fun _ final =>
              final.icache = mount.icache ∧
              (∀ blockno, mount.disk blockno = 0 → final.disk blockno = 0) ∧
              (0 < remaining + 1 → index ≠ 0 → final.disk index.toNat = 0) := by
        intro data state sameIcache sameDisk
        simp only [bzero, ensures_bind, ensures_bwrite, ensures_brelse]
        intro _ _ _
        refine Ensures.mono (induction (j + 1) 0 _) ?_
        rintro _ final ⟨finalIcache, keeps, _⟩
        refine ⟨finalIcache.trans sameIcache, fun blockno isClear => keeps blockno ?_,
          fun _ _ => keeps index.toNat (update_self _ _ _)⟩
        by_cases same : blockno = index.toNat
        · subst same
          exact update_self _ _ _
        · simp only [update_of_ne same, sameDisk]
          exact isClear
      simp only
      split
      case isTrue =>
        rw [ensures_bind, ensures_iblockAt]
        intro _
        split
        case isTrue =>
          rw [ensures_bind, ensures_bread]
          intro _ _
          rw [ensures_bind, ensures_brelse]
          intro _
          rw [ensures_bind, ensures_pure]
          exact rest _ _ rfl rfl
        case isFalse =>
          rw [ensures_bind, ensures_pure]
          exact rest _ _ rfl rfl
      case isFalse =>
        rw [ensures_bind, ensures_pure]
        exact rest _ _ rfl rfl

theorem shiftWordsFrom_lone {data : Block} (single : data.u32 1 = 0) :
    (shiftWordsFrom IDX_CNT_PER_INDIRECT_BLCOK data 0).1.u32
      (shiftWordsFrom IDX_CNT_PER_INDIRECT_BLCOK data 0).2 = 0 := by
  have words : IDX_CNT_PER_INDIRECT_BLCOK = 254 + 1 + 1 := rfl
  rw [words, shiftWordsFrom]
  split
  case isTrue =>
    have stays : (data.setU32 0 (data.u32 (0 + 1))).u32 1 = 0 := by
      rw [Block.u32_setU32 _ _ (by decide), if_neg (by decide), single]
    rw [shiftWordsFrom, if_neg (fun both => both.1 stays)]
    exact stays
  case isFalse isZero =>
    by_contra nonzero
    exact isZero ⟨nonzero, by decide⟩

theorem shiftIndexFrom_lone {j remaining : Nat} (idle : mount.held = [])
    (inRange : j + remaining < NDIRECT + NINDIRECT)
    (isLast : (mount.icache slot).di.pointer (j + 1) = 0)
    (nonzero : (mount.icache slot).di.pointer j ≠ 0)
    (single : (mount.disk ((mount.icache slot).di.pointer j).toNat).u32 1 = 0) :
    Yields (shiftIndexFrom slot (remaining + 1) j 0) mount fun _ final => final = { mount with
        disk := update mount.disk ((mount.icache slot).di.pointer j).toNat 0 } := by
  rw [shiftIndexFrom, yields_bind, yields_iblockAt]
  refine ⟨by omega, ?_⟩
  rw [if_neg nonzero, yields_bind, yields_bread, idle]
  refine ⟨List.not_mem_nil, by decide, ?_⟩
  simp only
  rw [if_neg (not_not.mpr (shiftWordsFrom_lone single))]
  simp only [bzero, yields_bind, yields_pure, yields_bwrite]
  refine ⟨List.mem_cons_self, List.mem_cons_self, yields_brelse_head rfl ?_⟩
  simp only [update_idem]
  cases remaining with
  | zero =>
    rw [shiftIndexFrom, yields_pure]
  | succ remaining =>
    rw [shiftIndexFrom, yields_bind, yields_iblockAt]
    refine ⟨by omega, ?_⟩
    rw [if_pos isLast, yields_pure]

/-! ## The list of blocks -/

def Mount.listAt (mount : Mount Task) (slot : Fin NINODE) (k : Nat) : UInt32 :=
  (mount.icache slot).di.treeAt mount.disk (.data k)

def Mount.blockList (mount : Mount Task) (slot : Fin NINODE) : List UInt32 :=
  Terminated.read (· = 0) maxBlocks (mount.listAt slot)

structure ListFormed (mount : Mount Task) (slot : Fin NINODE) (n : Nat) : Prop where
  size : (mount.icache slot).di.fsize.toNat = n * BSIZE
  length : (mount.blockList slot).length = n
  index : ∀ j, (mount.icache slot).di.pointer (NDIRECT + j) ≠ 0 ↔
    NDIRECT + j * IDX_CNT_PER_INDIRECT_BLCOK < n
  distinct : (mount.blockList slot).Nodup
  notIndex : ∀ j, (mount.icache slot).di.pointer (NDIRECT + j) ∉ mount.blockList slot
  indexDistinct : ∀ j other, (mount.icache slot).di.pointer (NDIRECT + j) =
    (mount.icache slot).di.pointer (NDIRECT + other) →
    (mount.icache slot).di.pointer (NDIRECT + j) ≠ 0 → j = other

/-- `idx_remove` returns, entry `i` is gone from the list and the others keep their order,
its block is clear, and no block other than it and the index blocks is changed. -/
def IdxRemoved (mount : Mount Task) (slot : Fin NINODE) (i : Nat) : Prop :=
  Yields (idxRemove slot i) mount fun _ final =>
    final.blockList slot = (mount.blockList slot).eraseIdx i ∧
    final.disk (mount.listAt slot i).toNat = 0 ∧
    ∀ blockno, blockno ≠ (mount.listAt slot i).toNat →
      (∀ j, blockno ≠ ((mount.icache slot).di.pointer (NDIRECT + j)).toNat) →
      final.disk blockno = mount.disk blockno

theorem Mount.listAt_direct (mount : Mount Task) (slot : Fin NINODE) {k : Nat}
    (direct : k < NDIRECT) : mount.listAt slot k = (mount.icache slot).di.pointer k := by
  rw [listAt, Dinode.treeAt, if_neg (fun both => Nat.not_le.mpr direct both.1),
    Dinode.blockAt_direct mount.disk _ direct]

theorem Mount.listAt_congr {other : Mount Task} {k : Nat}
    (sameDi : (other.icache slot).di = (mount.icache slot).di) (sameIndex : NDIRECT ≤ k →
      other.disk ((mount.icache slot).di.pointer
          (NDIRECT + (k - NDIRECT) / IDX_CNT_PER_INDIRECT_BLCOK)).toNat =
        mount.disk ((mount.icache slot).di.pointer
          (NDIRECT + (k - NDIRECT) / IDX_CNT_PER_INDIRECT_BLCOK)).toNat) :
    other.listAt slot k = mount.listAt slot k := by
  rw [listAt, listAt, sameDi, Dinode.treeAt, Dinode.treeAt, Dinode.blockAt, Dinode.blockAt]
  by_cases direct : k < NDIRECT
  · simp only [if_pos direct]
  · rw [sameIndex (Nat.not_lt.mp direct)]

theorem Mount.listAt_index_zero (mount : Mount Task) (slot : Fin NINODE) {j : Nat}
    (isClear : (mount.icache slot).di.pointer (NDIRECT + j) = 0 ∨
      (mount.disk ((mount.icache slot).di.pointer (NDIRECT + j)).toNat).u32 0 = 0) :
    mount.listAt slot (NDIRECT + j * IDX_CNT_PER_INDIRECT_BLCOK) = 0 := by
  rw [listAt]
  have place : NDIRECT + j * IDX_CNT_PER_INDIRECT_BLCOK =
      NDIRECT + (NDIRECT + j - NDIRECT) * IDX_CNT_PER_INDIRECT_BLCOK + 0 := by
    rw [Nat.add_sub_cancel_left, Nat.add_zero]
  by_cases isZero : (mount.icache slot).di.pointer (NDIRECT + j) = 0
  · apply Dinode.treeAt_of_root
    have root : (TreePlace.data (NDIRECT + j * IDX_CNT_PER_INDIRECT_BLCOK)).root = NDIRECT + j := by
      rw [TreePlace.root, if_neg (by omega), Nat.add_sub_cancel_left,
        Nat.mul_div_cancel _ (by decide)]
    rw [root, isZero]
  · rw [place, Dinode.treeAt_word (Nat.le_add_right _ _) isZero (by decide)]
    exact isClear.resolve_left isZero

namespace ListFormed

variable {n i : Nat} (formed : ListFormed mount slot n)
include formed

theorem listAt_ne_zero {k : Nat} (inList : k < n) : mount.listAt slot k ≠ 0 :=
  not_stop_of_lt (by rw [← Mount.blockList, formed.length]; exact inList)

theorem listAt_length (short : n < maxBlocks) : mount.listAt slot n = 0 := by
  have ends := @Terminated.stop_of_length _ (· = 0) _ maxBlocks (mount.listAt slot)
  rw [← Mount.blockList, formed.length] at ends
  exact ends short

theorem iblockCnt_eq : iblockCnt (mount.icache slot).di = (n : Int) := by
  have whole : (mount.icache slot).di.fsize.toNat % BSIZE = 0 := by
    rw [formed.size, Nat.mul_mod_left]
  rw [iblockCnt_of_mod whole, formed.size, Nat.mul_div_cancel _ (by decide)]

theorem le_maxBlocks : n ≤ maxBlocks := by
  rw [← formed.length]
  exact length_read_le

theorem listAt_mem {k : Nat} (inList : k < n) : mount.listAt slot k ∈ mount.blockList slot := by
  refine List.mem_of_getElem? (getElem?_read ?_)
  rw [← Mount.blockList, formed.length]
  exact inList

theorem exists_of_mem {blockno : UInt32} (isMember : blockno ∈ mount.blockList slot) :
    ∃ k < n, mount.listAt slot k = blockno := by
  rcases List.mem_iff_getElem.mp isMember with ⟨k, inList, rfl⟩
  rw [formed.length] at inList
  refine ⟨k, inList, ?_⟩
  have atPlace := @Terminated.getElem?_read _ (· = 0) _ maxBlocks (mount.listAt slot) k
    (by rw [← Mount.blockList, formed.length]; exact inList)
  rw [← Mount.blockList, List.getElem?_eq_getElem (by rwa [formed.length])] at atPlace
  exact (Option.some.inj atPlace).symm

end ListFormed

/-! ## What `idx_remove` runs -/

def Mount.directRemoved (mount : Mount Task) (slot : Fin NINODE) (i : Nat) : Mount Task :=
  ({ mount with
    disk := update mount.disk ((mount.icache slot).di.pointer i).toNat 0 }).withDi slot
    (((mount.icache slot).di.shift i (NDIRECT - 1)).setPointer (NDIRECT - 1)
      ((update mount.disk ((mount.icache slot).di.pointer i).toNat 0
        ((mount.icache slot).di.pointer NDIRECT).toNat).u32 0))

section
variable {n i : Nat} (idle : mount.held = [])
include idle

theorem idxRemove_short (few : iblockCnt (mount.icache slot).di = (n : Int)) (short : n < NDIRECT)
    (inList : i < n) :
    Yields (idxRemove slot i) mount fun _ final => final = ({ mount with
      disk := update mount.disk ((mount.icache slot).di.pointer i).toNat 0 }).withDi slot
        ((mount.icache slot).di.shift i n) := by
  rw [idxRemove, yields_bind, yields_getInode, few, if_pos (by exact_mod_cast short), yields_bind,
    yields_iblockAt]
  refine ⟨by omega, ?_⟩
  rw [yields_bind, yields_bread, idle]
  refine ⟨List.not_mem_nil, by decide, ?_⟩
  rw [yields_bind, bzero, yields_bwrite]
  refine ⟨List.mem_cons_self, ?_⟩
  rw [yields_bind]
  refine yields_brelse_head rfl ?_
  rw [Int.toNat_natCast]
  refine (shiftIblockFrom_yields (n - i) i _ (by omega)).mono ?_
  rintro _ _ rfl
  rw [Nat.add_sub_of_le (Nat.le_of_lt inList), ← idle]

theorem idxRemove_direct (many : iblockCnt (mount.icache slot).di = (n : Int))
    (long : NDIRECT ≤ n) (direct : i < NDIRECT) :
    idxRemove slot i mount =
      shiftIndexFrom slot NINDIRECT NDIRECT 0 (mount.directRemoved slot i) := by
  have notShort : ¬ iblockCnt (mount.icache slot).di < (NDIRECT : Int) := by
    rw [many]
    exact_mod_cast Nat.not_lt.mpr long
  have notHeld : ∀ blockno, blockno ∉ mount.held := by simp [idle]
  have few : mount.held.length < NIOBUF := by
    rw [idle]
    decide
  refine (bind_of_ok (rfl : getInode slot mount = _)).trans ?_
  refine (congrFun (if_neg notShort) mount).trans ((congrFun (if_pos direct) mount).trans ?_)
  refine (bind_of_ok (iblockAt_eq (by omega))).trans ((bind_of_ok (bread_eq ⟨notHeld _, few⟩)).trans ?_)
  refine (bind_of_ok (bzero_head rfl)).trans ((bind_of_ok (brelse_head rfl)).trans ?_)
  rcases @shiftIblockFrom_yields _ slot (NDIRECT - 1 - i) i { mount with
    disk := update mount.disk ((mount.icache slot).di.pointer i).toNat 0 }
    (by omega) with ⟨_, _, ran, rfl⟩
  refine (bind_of_ok ran).trans ?_
  have limit : i + (NDIRECT - 1 - i) = NDIRECT - 1 := by omega
  have following : ((mount.icache slot).di.shift i (NDIRECT - 1)).pointer NDIRECT =
      (mount.icache slot).di.pointer NDIRECT := by
    rw [Dinode.pointer_shift _ (by decide), if_neg (by omega)]
  rw [limit]
  refine (bind_of_ok (iblockAt_eq (by decide))).trans ?_
  rw [withDi_di, following]
  refine (bind_of_ok (bread_eq ⟨by exact notHeld _, by exact few⟩)).trans ?_
  refine (bind_of_ok (setIblock_eq (by decide))).trans ((bind_of_ok (brelse_head rfl)).trans ?_)
  simp only [Mount.withDi, Mount.directRemoved, update_self, update_idem]

omit idle in
theorem idxRemove_indirect (many : iblockCnt (mount.icache slot).di = (n : Int))
    (indirect : NDIRECT ≤ i) (inList : i < n) :
    idxRemove slot i mount =
      shiftIndexFrom slot (NINDIRECT - (i - NDIRECT) / IDX_CNT_PER_INDIRECT_BLCOK)
        (NDIRECT + (i - NDIRECT) / IDX_CNT_PER_INDIRECT_BLCOK)
        ((i - NDIRECT) % IDX_CNT_PER_INDIRECT_BLCOK) mount := by
  have long : NDIRECT ≤ n := by omega
  have notShort : ¬ iblockCnt (mount.icache slot).di < (NDIRECT : Int) := by
    rw [many]
    exact_mod_cast Nat.not_lt.mpr long
  refine (bind_of_ok (rfl : getInode slot mount = _)).trans ?_
  exact (congrFun (if_neg notShort) mount).trans
    (congrFun (if_neg (Nat.not_lt.mpr indirect)) mount)

end

/-! ## Which lists come out right -/

theorem Mount.pointer_directRemoved (mount : Mount Task) (slot : Fin NINODE) (i e : Nat) :
    ((mount.directRemoved slot i).icache slot).di.pointer e = if e = NDIRECT - 1 then
        (update mount.disk ((mount.icache slot).di.pointer i).toNat 0
          ((mount.icache slot).di.pointer NDIRECT).toNat).u32 0
      else if i ≤ e ∧ e < NDIRECT - 1 then (mount.icache slot).di.pointer (e + 1)
      else (mount.icache slot).di.pointer e := by
  rw [directRemoved, withDi_di, Dinode.pointer_setPointer _ (by decide),
    Dinode.pointer_shift _ (by decide)]

namespace ListFormed

variable {n i : Nat} (formed : ListFormed mount slot n)
include formed

variable {final : Mount Task}

omit formed in
theorem listAt_directRemoved (direct : i < NDIRECT)
    (sameIcache : final.icache = (mount.directRemoved slot i).icache) {k : Nat}
    (before : k < NDIRECT - 1) :
    final.listAt slot k = mount.listAt slot (if k < i then k else k + 1) := by
  have later : (if k < i then k else k + 1) < NDIRECT := by split <;> omega
  rw [final.listAt_direct slot (by omega), sameIcache, pointer_directRemoved,
    if_neg (by omega), mount.listAt_direct slot later]
  by_cases front : k < i
  · rw [if_neg (by omega), if_pos front]
  · rw [if_pos (by omega), if_neg front]

omit formed in
theorem listAt_last_directRemoved
    (sameIcache : final.icache = (mount.directRemoved slot i).icache) :
    final.listAt slot (NDIRECT - 1) = (update mount.disk ((mount.icache slot).di.pointer i).toNat 0
        ((mount.icache slot).di.pointer NDIRECT).toNat).u32 0 := by
  rw [final.listAt_direct slot (by decide), sameIcache, pointer_directRemoved, if_pos rfl]

theorem pointer_ne_index (inList : i < n) (direct : i < NDIRECT) (j : Nat) :
    ((mount.icache slot).di.pointer (NDIRECT + j)).toNat ≠
      ((mount.icache slot).di.pointer i).toNat := by
  intro same
  apply formed.notIndex j
  rw [UInt32.toNat_inj.mp same, ← mount.listAt_direct slot direct]
  exact formed.listAt_mem inList

theorem listAt_index {j : Nat} (needed : NDIRECT + j * IDX_CNT_PER_INDIRECT_BLCOK < n)
    {word : Nat} (inBlock : word < IDX_CNT_PER_INDIRECT_BLCOK) :
    mount.listAt slot (NDIRECT + j * IDX_CNT_PER_INDIRECT_BLCOK + word) =
      (mount.disk ((mount.icache slot).di.pointer (NDIRECT + j)).toNat).u32 word := by
  have entry := @Dinode.treeAt_word mount.disk _ (NDIRECT + j) word (Nat.le_add_right _ _)
    ((formed.index j).mpr needed) inBlock
  rwa [Nat.add_sub_cancel_left] at entry

section
variable (idle : mount.held = [])
include idle

theorem idxRemoved_twelve (twelve : n = NDIRECT) (inList : i < n) :
    IdxRemoved mount slot i ↔ (mount.disk 0).u32 0 = 0 := by
  have direct : i < NDIRECT := by omega
  have noIndex : (mount.icache slot).di.pointer NDIRECT = 0 := by
    by_contra nonzero
    have := (formed.index 0).mp nonzero
    omega
  have isBlock := mount.listAt_direct slot direct
  have nonzero := formed.listAt_ne_zero inList
  rw [isBlock] at nonzero
  have stays : ((mount.directRemoved slot i).icache slot).di.pointer NDIRECT = 0 := by
    rw [pointer_directRemoved, if_neg (by decide), if_neg (by omega), noIndex]
  have ran : idxRemove slot i mount = .ok ((), mount.directRemoved slot i) := by
    rw [idxRemove_direct idle formed.iblockCnt_eq (by omega) direct]
    refine (bind_of_ok (iblockAt_eq (by decide))).trans ?_
    rw [stays]
    rfl
  have last : (mount.directRemoved slot i).listAt slot (NDIRECT - 1) = (mount.disk 0).u32 0 := by
    have zeroth : ((mount.icache slot).di.pointer i).toNat ≠ 0 := by
      intro isZero
      exact nonzero (UInt32.toNat_inj.mp (isZero.trans UInt32.toNat_zero.symm))
    rw [listAt_last_directRemoved rfl, noIndex, UInt32.toNat_zero, update_of_ne zeroth.symm]
  have length := formed.length
  rw [IdxRemoved, yields_iff_of_ok ran, isBlock, ← last]
  constructor
  · rintro ⟨removed, _⟩
    have short : ((mount.directRemoved slot i).blockList slot).length = NDIRECT - 1 := by
      rw [removed, List.length_eraseIdx_of_lt (by omega), length, twelve]
    have ends := @Terminated.stop_of_length _ (· = 0) _ maxBlocks
      ((mount.directRemoved slot i).listAt slot)
    rw [← Mount.blockList, short] at ends
    exact ends (by decide)
  · intro isZero
    refine ⟨read_eraseIdx ?_ ?_ ?_ ?_, update_self _ _ _,
      fun blockno different _ => update_of_ne different _ _⟩
    · rw [← Mount.blockList, length]
      exact inList
    · intro k front
      rw [listAt_directRemoved direct rfl (by omega), if_pos front]
    · intro k back inside
      rw [← Mount.blockList, length] at inside
      rw [listAt_directRemoved direct rfl (by omega), if_neg (by omega)]
    · rw [← Mount.blockList, length, twelve]
      exact isZero

theorem idxRemoved_short (short : n < NDIRECT) (inList : i < n) : IdxRemoved mount slot i := by
  refine (idxRemove_short idle formed.iblockCnt_eq short inList).mono ?_
  rintro _ final rfl
  have isBlock := mount.listAt_direct slot (Nat.lt_trans inList short)
  rw [isBlock]
  refine ⟨?_, update_self _ _ _, fun blockno different _ => ?_⟩
  · have moved : ∀ k < NDIRECT, Mount.listAt (({ mount with
        disk := update mount.disk ((mount.icache slot).di.pointer i).toNat 0 }).withDi slot
          ((mount.icache slot).di.shift i n)) slot k =
        if i ≤ k ∧ k < n then mount.listAt slot (k + 1) else mount.listAt slot k := by
      intro k inDirect
      rw [listAt_direct _ slot inDirect, withDi_di, Dinode.pointer_shift _ (by omega),
        mount.listAt_direct slot inDirect]
      split
      case isTrue inside => rw [mount.listAt_direct slot (by omega)]
      case isFalse => rfl
    have length := formed.length
    refine read_eraseIdx ?_ ?_ ?_ ?_
    · rw [← Mount.blockList, length]
      exact inList
    · intro k before
      rw [moved k (by omega), if_neg (by omega)]
    · intro k after inside
      rw [← Mount.blockList, length] at inside
      rw [moved k (by omega), if_pos (by omega)]
    · rw [← Mount.blockList, length, moved _ (by omega), if_pos (by omega),
        Nat.sub_add_cancel (by omega)]
      exact formed.listAt_length (Nat.lt_trans short (by decide))
  · exact update_of_ne different _ _

theorem idxRemoved_thirteen (thirteen : n = NDIRECT + 1)
    (direct : i < NDIRECT) : IdxRemoved mount slot i := by
  have inList : i < n := by omega
  have isBlock := mount.listAt_direct slot direct
  have needed : NDIRECT + 0 * IDX_CNT_PER_INDIRECT_BLCOK < n := by omega
  have apart := formed.pointer_ne_index inList direct 0
  have hasIndex := (formed.index 0).mpr needed
  rw [Nat.add_zero] at apart hasIndex
  have entry := fun word => @listAt_index _ _ _ _ formed 0 needed word
  simp only [Nat.zero_mul, Nat.add_zero] at entry
  have index : ((mount.directRemoved slot i).icache slot).di.pointer NDIRECT =
      (mount.icache slot).di.pointer NDIRECT := by
    rw [pointer_directRemoved, if_neg (by decide), if_neg (by omega)]
  have noSecond : ((mount.directRemoved slot i).icache slot).di.pointer (NDIRECT + 1) = 0 := by
    rw [pointer_directRemoved, if_neg (by decide), if_neg (by omega)]
    by_contra nonzero
    have := (formed.index 1).mp nonzero
    simp only [IDX_CNT_PER_INDIRECT_BLCOK, BSIZE] at this
    omega
  have content : (mount.directRemoved slot i).disk ((mount.icache slot).di.pointer NDIRECT).toNat =
      mount.disk ((mount.icache slot).di.pointer NDIRECT).toNat :=
    update_of_ne apart _ _
  have single : ((mount.directRemoved slot i).disk
      (((mount.directRemoved slot i).icache slot).di.pointer NDIRECT).toNat).u32 1 = 0 := by
    rw [index, content, ← entry 1 (by decide), ← thirteen]
    exact formed.listAt_length (by rw [thirteen]; decide)
  have runs := @shiftIndexFrom_lone _ (mount.directRemoved slot i) slot NDIRECT 2 idle (by decide)
    noSecond (by rwa [index]) single
  rw [IdxRemoved, Yields, idxRemove_direct idle formed.iblockCnt_eq (by omega) direct]
  refine runs.mono ?_
  rintro _ final isFinal
  have sameIcache : final.icache = (mount.directRemoved slot i).icache := by rw [isFinal]
  have wrote : final.disk = update (mount.directRemoved slot i).disk
      ((mount.icache slot).di.pointer NDIRECT).toNat 0 := by rw [isFinal, index]
  have length := formed.length
  have moved : ∀ k < NDIRECT,
      final.listAt slot k = mount.listAt slot (if k < i then k else k + 1) := by
    intro k inDirect
    by_cases before : k < NDIRECT - 1
    · exact listAt_directRemoved direct sameIcache before
    · have isLast : k = NDIRECT - 1 := by omega
      subst isLast
      rw [listAt_last_directRemoved sameIcache, update_of_ne apart, if_neg (by omega),
        ← entry 0 (by decide)]
      rfl
  rw [isBlock]
  refine ⟨read_eraseIdx ?_ ?_ ?_ ?_, ?_, ?_⟩
  · rw [← Mount.blockList, length]
    exact inList
  · intro k front
    rw [moved k (by omega), if_pos front]
  · intro k back inside
    rw [← Mount.blockList, length] at inside
    rw [moved k (by omega), if_neg (by omega)]
  · rw [← Mount.blockList, length, thirteen]
    have cleared := @Mount.listAt_index_zero _ final slot 0
    rw [Nat.zero_mul] at cleared
    refine cleared (.inr ?_)
    rw [Nat.add_zero, sameIcache, index, wrote, update_self]
    exact Block.u32_zero 0
  · rw [wrote, update_of_ne apart.symm]
    exact update_self _ _ _
  · intro blockno different notIndex
    have notFirst := notIndex 0
    rw [Nat.add_zero] at notFirst
    rw [wrote, update_of_ne notFirst]
    exact update_of_ne different _ _

end

theorem length_le_of_clear {j : Nat}
    (samePointer : (final.icache slot).di.pointer (NDIRECT + j) =
      (mount.icache slot).di.pointer (NDIRECT + j))
    (isClear : final.disk ((mount.icache slot).di.pointer (NDIRECT + j)).toNat = 0)
    (removed : final.blockList slot = (mount.blockList slot).eraseIdx i) (inList : i < n) :
    n - 1 ≤ NDIRECT + j * IDX_CNT_PER_INDIRECT_BLCOK := by
  have ends : final.listAt slot (NDIRECT + j * IDX_CNT_PER_INDIRECT_BLCOK) = 0 := by
    refine final.listAt_index_zero slot (.inr ?_)
    rw [samePointer, isClear]
    exact Block.u32_zero 0
  have bound := @Terminated.length_le_of_stop _ (· = 0) _ maxBlocks (final.listAt slot) _ ends
  have length := formed.length
  rwa [← Mount.blockList, removed, List.length_eraseIdx_of_lt (by omega), length] at bound

theorem not_idxRemoved_direct (idle : mount.held = []) (long : NDIRECT + 1 < n)
    (direct : i < NDIRECT) : ¬ IdxRemoved mount slot i := by
  rintro ⟨result, final, ran, removed, _⟩
  rw [idxRemove_direct idle formed.iblockCnt_eq (by omega) direct] at ran
  have index : ((mount.directRemoved slot i).icache slot).di.pointer NDIRECT =
      (mount.icache slot).di.pointer NDIRECT := by
    rw [pointer_directRemoved, if_neg (by decide), if_neg (by omega)]
  have hasIndex := (formed.index 0).mpr (by omega)
  rcases shiftIndexFrom_clears NINDIRECT NDIRECT 0 _ result final ran with
    ⟨sameIcache, _, clears⟩
  rw [index] at clears
  have bound := @length_le_of_clear _ _ _ _ i formed final 0
    (by rw [sameIcache, Nat.add_zero, index]) (clears (by decide) hasIndex) removed (by omega)
  omega

theorem idxRemoved_indirect (idle : mount.held = []) (indirect : NDIRECT ≤ i) (inList : i < n) :
    IdxRemoved mount slot i ↔ i + 1 = n ∧ (i - NDIRECT) % IDX_CNT_PER_INDIRECT_BLCOK = 0 ∧
      mount.disk (mount.listAt slot i).toNat = 0 := by
  have ran := @idxRemove_indirect _ mount slot n i formed.iblockCnt_eq indirect inList
  have words : IDX_CNT_PER_INDIRECT_BLCOK = 256 := rfl
  have bounded := formed.le_maxBlocks
  simp only [maxBlocks, NINDIRECT, words] at bounded
  rw [words] at ran ⊢
  generalize part : (i - NDIRECT) / 256 = j at ran
  have place : NDIRECT + j * 256 ≤ i := by omega
  have inRange : j < NINDIRECT := by
    simp only [NINDIRECT]
    omega
  have hasIndex := (formed.index j).mpr (by rw [words]; omega)
  -- The last entry of the list, alone in its index block.
  have lone : i + 1 = n → (i - NDIRECT) % 256 = 0 →
      idxRemove slot i mount = .ok ((), { mount with
        disk := update mount.disk
          ((mount.icache slot).di.pointer (NDIRECT + j)).toNat 0 }) := by
    intro isLast isFirst
    have noNext : (mount.icache slot).di.pointer (NDIRECT + j + 1) = 0 := by
      by_contra nonzero
      have := (formed.index (j + 1)).mp nonzero
      rw [words] at this
      omega
    have single : (mount.disk ((mount.icache slot).di.pointer (NDIRECT + j)).toNat).u32 1 = 0 := by
      have entry := @listAt_index _ _ _ _ formed j (by rw [words]; omega) 1 (by decide)
      rw [words, show NDIRECT + j * 256 + 1 = n by omega] at entry
      rw [← entry]
      apply formed.listAt_length
      simp only [maxBlocks, NINDIRECT, words]
      simp only [NINDIRECT] at inRange
      omega
    have remaining : NINDIRECT - j = NINDIRECT - j - 1 + 1 := by omega
    rw [ran, isFirst, remaining]
    rcases @shiftIndexFrom_lone _ mount slot (NDIRECT + j) (NINDIRECT - j - 1) idle (by omega)
      noNext hasIndex single with ⟨_, _, runs, rfl⟩
    exact runs
  have kept : ∀ blockno, blockno ≠ ((mount.icache slot).di.pointer (NDIRECT + j)).toNat →
      update mount.disk ((mount.icache slot).di.pointer (NDIRECT + j)).toNat 0 blockno =
        mount.disk blockno := fun blockno different => update_of_ne different _ _
  have notIndex : (mount.listAt slot i).toNat ≠
      ((mount.icache slot).di.pointer (NDIRECT + j)).toNat :=
    fun same => formed.notIndex j (UInt32.toNat_inj.mp same ▸ formed.listAt_mem inList)
  constructor
  · rintro ⟨result, final, returned, removed, cleared, _⟩
    rcases shiftIndexFrom_clears _ _ _ mount result final (ran ▸ returned) with
      ⟨sameIcache, _, clears⟩
    have bound := @length_le_of_clear _ _ _ _ i formed final j (by rw [sameIcache])
      (clears (by omega) hasIndex) removed inList
    rw [words] at bound
    have isLast : i + 1 = n := by omega
    have isFirst : (i - NDIRECT) % 256 = 0 := by omega
    refine ⟨isLast, isFirst, ?_⟩
    rw [lone isLast isFirst] at returned
    cases returned
    exact (kept _ notIndex).symm.trans cleared
  · rintro ⟨isLast, isFirst, isClear⟩
    rw [IdxRemoved, yields_iff_of_ok (lone isLast isFirst)]
    have length := formed.length
    refine ⟨read_eraseIdx ?_ ?_ ?_ ?_, (kept _ notIndex).trans isClear,
      fun blockno _ apart => kept blockno (apart j)⟩
    · rw [← Mount.blockList, length]
      exact inList
    · intro k front
      refine listAt_congr rfl fun kIndirect => kept _ fun same => ?_
      have hasOwn := (formed.index ((k - NDIRECT) / IDX_CNT_PER_INDIRECT_BLCOK)).mpr
        (by rw [words]; omega)
      have sameIndex := formed.indexDistinct _ j (UInt32.toNat_inj.mp same) hasOwn
      rw [words] at sameIndex
      omega
    · intro k back inside
      rw [← Mount.blockList, length] at inside
      omega
    · rw [← Mount.blockList, length, show n - 1 = NDIRECT + j * IDX_CNT_PER_INDIRECT_BLCOK by
        rw [words]; omega]
      refine listAt_index_zero _ slot (.inr ?_)
      simp only [update_self]
      exact Block.u32_zero 0

end ListFormed

/-- `idx_remove` removes an entry of the list exactly if the list has less than twelve
blocks, or twelve and block 0 of the disk starts with a 0, or thirteen and a direct block
goes, or the entry is the last one of the list and the first one of an index block and its
block is clear already. -/
theorem idxRemoved_iff {n i : Nat} (formed : ListFormed mount slot n) (idle : mount.held = [])
    (inList : i < n) :
    IdxRemoved mount slot i ↔ n < NDIRECT ∨ (n = NDIRECT ∧ (mount.disk 0).u32 0 = 0) ∨
      (n = NDIRECT + 1 ∧ i < NDIRECT) ∨
      (NDIRECT ≤ i ∧ i + 1 = n ∧ (i - NDIRECT) % IDX_CNT_PER_INDIRECT_BLCOK = 0 ∧
        mount.disk (mount.listAt slot i).toNat = 0) := by
  by_cases short : n < NDIRECT
  · exact iff_of_true (formed.idxRemoved_short idle short inList) (.inl short)
  · by_cases direct : i < NDIRECT
    · by_cases twelve : n = NDIRECT
      · rw [formed.idxRemoved_twelve idle twelve inList]
        constructor
        · exact fun starts => .inr (.inl ⟨twelve, starts⟩)
        · rintro (few | ⟨_, starts⟩ | ⟨thirteen, _⟩ | ⟨indirect, _⟩)
          · exact absurd few short
          · exact starts
          · omega
          · omega
      · by_cases thirteen : n = NDIRECT + 1
        · exact iff_of_true (formed.idxRemoved_thirteen idle thirteen direct)
            (.inr (.inr (.inl ⟨thirteen, direct⟩)))
        · refine iff_of_false (formed.not_idxRemoved_direct idle (by omega) direct) ?_
          omega
    · rw [formed.idxRemoved_indirect idle (Nat.not_lt.mp direct) inList]
      constructor
      · exact fun lone => .inr (.inr (.inr ⟨Nat.not_lt.mp direct, lone⟩))
      · rintro (few | ⟨twelve, _⟩ | ⟨_, isDirect⟩ | ⟨_, lone⟩)
        · exact absurd few short
        · omega
        · exact absurd isDirect direct
        · exact lone

def manyBlocks (count : Nat) : Mount Unit :=
  { thirteenBlocks with
    disk := fun blockno =>
      if blockno = 750 then ((0 : Block).setU32 0 (if 12 < count then 713 else 0)).setU32 1
        (if 13 < count then 714 else 0)
      else 0
    icache := fun _ => ⟨⟨.DIRECTORY, 0, 1, UInt32.ofNat (count * BSIZE), fun i =>
      if i.val < NDIRECT ∧ i.val < count then UInt32.ofNat (701 + i.val)
      else if i.val = NDIRECT ∧ NDIRECT < count then 750 else 0⟩, some (), 1, 1⟩ }

theorem pointer_manyBlocks (count j : Nat) :
    ((manyBlocks count).icache 0).di.pointer (NDIRECT + j) =
      if j = 0 ∧ NDIRECT < count then 750 else 0 := by
  rw [Dinode.pointer]
  split
  case isTrue inRange =>
    simp only [manyBlocks, Nat.add_eq_left]
    rw [if_neg (by omega)]
  case isFalse outside =>
    rw [if_neg]
    rintro ⟨rfl, _⟩
    exact outside (by decide)

theorem listFormed_manyBlocks {count : Nat} (few : count ≤ 14)
    (length : ((manyBlocks count).blockList 0).length = count)
    (distinct : ((manyBlocks count).blockList 0).Nodup)
    (notIndex : 750 ∉ (manyBlocks count).blockList 0 ∧ 0 ∉ (manyBlocks count).blockList 0) :
    ListFormed (manyBlocks count) 0 count where
  size := by
    show (UInt32.ofNat (count * BSIZE)).toNat = count * BSIZE
    rw [UInt32.toNat_ofNat', Nat.mod_eq_of_lt]
    simp only [BSIZE]
    omega
  length := length
  index j := by
    rw [pointer_manyBlocks, show IDX_CNT_PER_INDIRECT_BLCOK = 256 from rfl]
    have twelve : NDIRECT = 12 := rfl
    split
    case isTrue first => exact iff_of_true (by decide) (by omega)
    case isFalse notFirst => exact iff_of_false (fun nonzero => nonzero rfl) (by omega)
  distinct := distinct
  notIndex j := by
    rw [pointer_manyBlocks]
    split
    · exact notIndex.1
    · exact notIndex.2
  indexDistinct j other same nonzero := by
    rw [pointer_manyBlocks] at nonzero same
    rw [pointer_manyBlocks] at same
    split at nonzero
    case isTrue first =>
      rw [if_pos first] at same
      split at same
      case isTrue second => omega
      case isFalse => cases same
    case isFalse => exact absurd rfl nonzero

theorem idxRemoved_manyBlocks : IdxRemoved (manyBlocks 2) 0 0 := by
  have formed : ListFormed (manyBlocks 2) 0 2 :=
    listFormed_manyBlocks (by decide) (by decide +kernel) (by decide +kernel) (by decide +kernel)
  exact (idxRemoved_iff formed rfl (by decide)).mpr (.inl (by decide))

/-- After the first of fourteen blocks is removed, the list ends with the direct blocks. -/
theorem idxRemove_fourteen : ListFormed (manyBlocks 14) 0 14 ∧
    ((manyBlocks 14).blockList 0).eraseIdx 0 =
      [702, 703, 704, 705, 706, 707, 708, 709, 710, 711, 712, 713, 714] ∧
    (idxRemove 0 0 (manyBlocks 14)).map (fun outcome => outcome.2.blockList 0) =
      .ok [702, 703, 704, 705, 706, 707, 708, 709, 710, 711, 712, 713] :=
  ⟨listFormed_manyBlocks (by decide) (by decide +kernel) (by decide +kernel) (by decide +kernel),
    by decide +kernel, by decide +kernel⟩

end Tnix.Fs
