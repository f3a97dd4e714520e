import Tnix.Fs.Directory
import Tnix.Fs.LiveEntries

/-! # Deleting an entry

`dentry_del` clears an entry of a block that keeps others. When it takes the last entry of
a block, it still holds the buffer of the block: `idx_remove` panics on a direct block, and
behind them it leaves an empty index block in the list. The empty name is that of a cleared
slot, which is then counted out once more. -/

namespace Tnix.Fs

open Program Block

namespace Block

variable {old new data : Block} {j : Nat} {name : List UInt8}

def entries (data : Block) : List (List UInt8 × UInt32) :=
  Occupied.values (List.range' 1 dentryMax) data.entry

theorem Cleared.entry_other (cleared : Cleared old new j) {i : Nat} (slot : Slot i)
    (different : i ≠ j) : new.entry i = old.entry i := by
  rw [entry, entry, cleared.live_other slot different, cleared.name_other slot different,
    cleared.inum_same i slot]

theorem length_entries (counted : data.Counted) : data.entries.length = data.cnt.toNat := by
  rw [counted, entries, Occupied.values, List.length_filterMap_eq_countP]
  apply List.countP_congr
  intro i _
  rw [entry]
  cases data.live i <;> simp

theorem findEntry_entry (valid : Valid name) (found : findEntry data name = some j) :
    data.entry j = some (name, data.dentryInum j) := by
  rcases findEntry_eq_some valid found with ⟨_, rfl⟩
  exact entry_of_live ((live_iff data j).mpr valid.1)

theorem valid_of_entry {inum : UInt32} (isEntry : data.entry j = some (name, inum)) :
    Valid name := by
  rw [entry] at isEntry
  split at isEntry
  case isFalse => cases isEntry
  case isTrue isLive =>
    cases isEntry
    refine ⟨(live_iff data j).mp isLive, ?_, fun isNul => ?_⟩
    · exact (List.takeWhile_sublist _).length_le.trans (by simp)
    · exact absurd (List.mem_takeWhile_imp isNul) (by simp)

theorem findEntry_long (noNul : 0 ∉ name) (long : DLENGTH < name.length) :
    findEntry data name = none := by
  by_contra found
  rcases Option.ne_none_iff_exists'.mp found with ⟨j, isFound⟩
  have short := length_le_of_nameEqualFrom noNul DLENGTH (findEntry_slot isFound).2
  omega

theorem exists_findEntry (counted : data.Counted) (valid : Valid name) {i : Nat} (slot : Slot i)
    {inum : UInt32} (isEntry : data.entry i = some (name, inum)) :
    ∃ j, findEntry data name = some j := by
  cases found : findEntry data name with
  | some j => exact ⟨j, rfl⟩
  | none =>
    refine absurd ?_ (findEntry_eq_none counted valid found slot)
    rw [entry] at isEntry
    split at isEntry
    case isTrue => exact congrArg Prod.fst (Option.some.inj isEntry)
    case isFalse => cases isEntry

def Lone (data : Block) (name : List UInt8) : Prop := ∃ inum, data.entries = [(name, inum)]

theorem lone_iff (counted : data.Counted) (valid : Valid name) :
    data.Lone name ↔ ∃ j, findEntry data name = some j ∧ data.cnt = 1 := by
  have length := length_entries counted
  have one : data.cnt = 1 ↔ data.cnt.toNat = 1 := by
    rw [← BitVec.toNat_inj]
    rfl
  constructor
  · rintro ⟨inum, only⟩
    have isEntry : (name, inum) ∈ data.entries := by
      rw [only]
      exact List.mem_singleton_self _
    rcases Occupied.mem_values.mp isEntry with ⟨i, member, atSlot⟩
    rcases exists_findEntry counted valid (Slot.mem_range.mp member) atSlot with ⟨j, found⟩
    rw [only, List.length_singleton] at length
    exact ⟨j, found, one.mpr length.symm⟩
  · rintro ⟨j, found, isOne⟩
    rw [one.mp isOne] at length
    rcases List.length_eq_one_iff.mp length with ⟨single, only⟩
    have isEntry : (name, data.dentryInum j) ∈ data.entries :=
      Occupied.mem_values.mpr ⟨j, Slot.mem_range.mpr (findEntry_slot found).1,
        findEntry_entry valid found⟩
    rw [only, List.mem_singleton] at isEntry
    exact ⟨data.dentryInum j, by rw [only, isEntry]⟩

def delEntry (data : Block) (j : Nat) : Block :=
  (clearName data j).setU64 0 ((clearName data j).cnt - 1)

theorem cnt_delEntry (slot : Slot j) : (delEntry data j).cnt = 0 ↔ data.cnt = 1 := by
  rw [delEntry, (cleared_del slot).cnt, BitVec.sub_eq_iff_eq_add]
  rfl

end Block

variable {Task : Type} {mount : Mount Task} {slot : Fin NINODE} {n : Nat} {name : List UInt8}

theorem ensures_idxRemove_held {mount : Mount Task} {slot : Fin NINODE} {k : Nat}
    (direct : k < NDIRECT) (isHeld : ((mount.icache slot).di.pointer k).toNat ∈ mount.held)
    {post : Unit → Mount Task → Prop} : Ensures (idxRemove slot k) mount post := by
  simp only [idxRemove, ensures_bind, ensures_getInode]
  have stuck {α : Type} {next : IoBuf → FsM Task α} {after : α → Mount Task → Prop} :
      Ensures (bread ((mount.icache slot).di.pointer k).toNat >>= next) mount after := by
    rw [ensures_bind, ensures_bread]
    exact fun notHeld => absurd isHeld notHeld
  split
  · rw [ensures_bind, ensures_iblockAt]
    exact fun _ => stuck
  · rw [ensures_bind, ensures_iblockAt]
    exact fun _ => stuck

theorem blind_sb : Blind (fun mount : Mount Task => mount.sb) :=
  ⟨fun _ _ => rfl, fun _ _ => rfl, fun _ _ _ => rfl⟩

def HoldsClearIndex (mount : Mount Task) (slot : Fin NINODE) : Prop :=
  ∃ m, (mount.icache slot).di.pointer (NDIRECT + m) ≠ 0 ∧
    mount.disk ((mount.icache slot).di.pointer (NDIRECT + m)).toNat = 0

/-! ## The scan of the blocks -/

theorem first_found (name : List UInt8) :
    (∀ k < n, findEntry (mount.content slot k) name = none) ∨
    ∃ k j, k < n ∧ findEntry (mount.content slot k) name = some j ∧
      ∀ i < k, findEntry (mount.content slot i) name = none := by
  by_cases missing : ∀ k < n, findEntry (mount.content slot k) name = none
  · exact .inl missing
  · push Not at missing
    rcases Nat.find_spec missing with ⟨inDir, found⟩
    rcases Option.ne_none_iff_exists'.mp found with ⟨j, isFound⟩
    refine .inr ⟨Nat.find missing, j, inDir, isFound, fun i before => ?_⟩
    by_contra earlier
    exact Nat.find_min missing before ⟨Nat.lt_trans before inDir, earlier⟩

namespace DirFormed

variable (formed : DirFormed mount slot n)
include formed

theorem delInFrom_skip (idle : mount.held = []) {k : Nat} (inDir : k ≤ n)
    (first : ∀ i < k, findEntry (mount.content slot i) name = none) :
    delInFrom slot name n 0 mount = delInFrom slot name (n - k) k mount := by
  induction k with
  | zero => rfl
  | succ k induction =>
    rw [induction (by omega) fun i before => first i (by omega),
      show n - k = n - (k + 1) + 1 by omega, delInFrom,
      bind_of_ok (formed.list.dataBlockGet_eq idle (by omega))]
    simp only [first k (Nat.lt_succ_self k)]
    rw [bind_of_ok (brelse_head rfl), ← idle]

theorem delInFrom_missing (idle : mount.held = [])
    (missing : ∀ k < n, findEntry (mount.content slot k) name = none) :
    delInFrom slot name n 0 mount = .ok ((), mount) := by
  rw [formed.delInFrom_skip idle (Nat.le_refl n) missing, Nat.sub_self]
  rfl

/-! ## A block that keeps entries -/

theorem delInFrom_yields (idle : mount.held = []) {k j : Nat} (inDir : k < n)
    (found : findEntry (mount.content slot k) name = some j)
    (keeps : (mount.content slot k).cnt ≠ 1)
    (first : ∀ i < k, findEntry (mount.content slot i) name = none) :
    Yields (delInFrom slot name n 0) mount fun _ final =>
      final = mount.withContent slot k ((mount.content slot k).delEntry j) := by
  have notLast : ¬ ((mount.content slot k).delEntry j).cnt = 0 :=
    fun isZero => keeps ((cnt_delEntry (findEntry_slot found).1).mp isZero)
  rw [Yields, formed.delInFrom_skip idle (Nat.le_of_lt inDir) first, ← Yields,
    show n - k = n - (k + 1) + 1 by omega, delInFrom, yields_bind,
    yields_iff_of_ok (formed.list.dataBlockGet_eq idle inDir)]
  simp only [found]
  rw [← Block.delEntry, if_neg notLast, yields_bind, yields_bwrite]
  refine ⟨List.mem_cons_self, yields_brelse_head rfl ?_⟩
  rw [Mount.withContent, ← idle]

/-! ## A block that becomes empty -/

theorem not_holdsClearIndex : ¬ HoldsClearIndex mount slot := by
  rintro ⟨m, nonzero, isClear⟩
  refine formed.list.listAt_ne_zero ((formed.list.index m).mp nonzero) ?_
  refine mount.listAt_index_zero slot (.inr ?_)
  rw [isClear]
  exact u32_zero 0

theorem clearIndex_stays {state : Mount Task} {m : Nat} (settled : Settled mount slot)
    (needed : NDIRECT + m * IDX_CNT_PER_INDIRECT_BLCOK < n)
    (sameSb : state.sb = mount.sb) (sameIcache : state.icache = mount.icache)
    (isClear : state.disk ((mount.icache slot).di.pointer (NDIRECT + m)).toNat = 0)
    (b : IoBuf) :
    Ensures (do
      let inode ← getInode slot
      setDi slot { inode.di with fsize := inode.di.fsize - UInt32.ofNat BSIZE }
      iupdate slot
      bfree (UInt32.ofNat b.blockno)
      brelse b) state fun _ final => HoldsClearIndex final slot := by
  have region := (formed.indexInUse m needed).1.1
  have nonzero := (formed.list.index m).mpr needed
  have mapped := settled.geometry.bmap_le
  have address := settled.address_lt
  simp only [ensures_bind, ensures_getInode, ensures_setDi, iupdate, ensures_get, ensures_bread,
    ensures_bwrite, ensures_brelse, bfree, ensures_readNthBmap, sameSb, sameIcache,
    Function.update_self]
  intro _ _ _ _ inMap _ _
  split
  case isTrue => exact ensures_throw.mpr trivial
  case isFalse =>
    simp only [ensures_bind, ensures_bwrite, ensures_brelse]
    intro _ _ _
    refine ⟨m, ?_, ?_⟩
    · simp only [Function.update_self]
      exact nonzero
    · simp only [Function.update_self]
      have samePointer : ({ (mount.icache slot).di with
          fsize := (mount.icache slot).di.fsize - UInt32.ofNat BSIZE } : Dinode).pointer
          (NDIRECT + m) = (mount.icache slot).di.pointer (NDIRECT + m) := rfl
      rw [samePointer, Function.update_of_ne (by omega), Function.update_of_ne (by omega)]
      exact isClear

theorem delInFrom_lone (settled : Settled mount slot) {k j : Nat} (inDir : k < n)
    (entry : findEntry (mount.content slot k) name = some j)
    (isOne : (mount.content slot k).cnt = 1)
    (first : ∀ i < k, findEntry (mount.content slot i) name = none) :
    Ensures (delInFrom slot name n 0) mount fun _ final => HoldsClearIndex final slot := by
  have idle := settled.idle
  rw [Ensures, formed.delInFrom_skip idle (Nat.le_of_lt inDir) first, ← Ensures,
    show n - k = n - (k + 1) + 1 by omega, delInFrom, ensures_bind,
    ensures_iff_of_ok (formed.list.dataBlockGet_eq idle inDir)]
  simp only [entry]
  rw [← Block.delEntry, if_pos ((cnt_delEntry (findEntry_slot entry).1).mpr isOne), ensures_bind]
  by_cases direct : k < NDIRECT
  · refine ensures_idxRemove_held direct ?_
    rw [← mount.listAt_direct slot direct]
    exact List.mem_cons_self
  · intro result state ran
    rw [@idxRemove_indirect _ { mount with held := [(mount.listAt slot k).toNat] } slot n k
      formed.list.iblockCnt_eq (Nat.not_lt.mp direct) inDir] at ran
    have sameSb := blind_sb.shiftIndexFrom slot _ _ _ _ result state ran
    rcases shiftIndexFrom_clears _ _ _ _ result state ran with ⟨sameIcache, _, clears⟩
    have bound := formed.list.le_maxBlocks
    have needed : NDIRECT + (k - NDIRECT) / IDX_CNT_PER_INDIRECT_BLCOK *
        IDX_CNT_PER_INDIRECT_BLCOK < n := by
      have := Nat.div_mul_le_self (k - NDIRECT) IDX_CNT_PER_INDIRECT_BLCOK
      omega
    have isClear := clears ?_ ((formed.list.index _).mpr needed)
    · exact formed.clearIndex_stays settled needed sameSb sameIcache isClear
        ⟨(mount.listAt slot k).toNat, mount.content slot k⟩
    · simp only [maxBlocks, NINDIRECT, IDX_CNT_PER_INDIRECT_BLCOK, BSIZE] at bound ⊢
      omega

end DirFormed

/-! ## When an entry is deleted right -/

/-- `dentry_del` returns and leaves a well-formed directory without the name. A block that
becomes empty is taken from the list, the size on the disk is that of the remaining blocks,
and the block is free. Without an entry of the name nothing changes. -/
def DelExact (mount : Mount Task) (slot : Fin NINODE) (n : Nat) (name : List UInt8) : Prop :=
  Yields (dentryDel slot name) mount fun _ final =>
    (∃ n', DirFormed final slot n' ∧
      final.entries slot n' = (mount.entries slot n).filter (·.1 ≠ name)) ∧
    (∀ k < n, (mount.content slot k).Lone name →
      final.blockList slot = (mount.blockList slot).eraseIdx k ∧
      (final.volume.ino (mount.icache slot).inum).fsize =
        (mount.icache slot).di.fsize - UInt32.ofNat BSIZE ∧
      marked final.sb final.disk (mount.listAt slot k) = false) ∧
    ((∀ entry ∈ mount.entries slot n, entry.1 ≠ name) → final = mount)

def NamesDistinct (mount : Mount Task) (slot : Fin NINODE) (n : Nat) : Prop :=
  ∀ place ∈ dentryPlaces n, ∀ other ∈ dentryPlaces n, ∀ name first second,
    mount.dentry slot place = some (name, first) →
    mount.dentry slot other = some (name, second) → place = other

theorem Mount.dentry_of_findEntry (valid : Block.Valid name) {k j : Nat} (inDir : k < n)
    (found : findEntry (mount.content slot k) name = some j) :
    (k, j) ∈ dentryPlaces n ∧
      mount.dentry slot (k, j) = some (name, (mount.content slot k).dentryInum j) :=
  ⟨mem_dentryPlaces.mpr ⟨inDir, (findEntry_slot found).1⟩, findEntry_entry valid found⟩

theorem absent_of_not_valid (notValid : ¬ Block.Valid name) :
    (∀ entry ∈ mount.entries slot n, entry.1 ≠ name) ∧
      ∀ k < n, ¬ (mount.content slot k).Lone name := by
  constructor
  · rintro entry isEntry rfl
    rcases Occupied.mem_values.mp isEntry with ⟨place, _, atPlace⟩
    exact notValid (valid_of_entry atPlace)
  · rintro k _ ⟨inum, only⟩
    have isEntry : (name, inum) ∈ (mount.content slot k).entries := only ▸ List.mem_singleton_self _
    rcases Occupied.mem_values.mp isEntry with ⟨i, _, atSlot⟩
    exact notValid (valid_of_entry atSlot)

namespace DirFormed

variable (formed : DirFormed mount slot n)
include formed

theorem dentryDel_eq : dentryDel slot name mount = delInFrom slot name n 0 mount := by
  rw [dentryDel, bind_of_ok rfl, formed.list.iblockCnt_eq, Int.toNat_natCast]

theorem delExact_missing (settled : Settled mount slot)
    (missing : ∀ k < n, findEntry (mount.content slot k) name = none)
    (absent : ∀ entry ∈ mount.entries slot n, entry.1 ≠ name)
    (noLone : ∀ k < n, ¬ (mount.content slot k).Lone name) : DelExact mount slot n name := by
  refine ⟨(), mount, formed.dentryDel_eq.trans (formed.delInFrom_missing settled.idle missing),
    ⟨n, formed, ?_⟩, fun k inDir lone => absurd lone (noLone k inDir), fun _ => rfl⟩
  exact (List.filter_eq_self.mpr fun entry isEntry => decide_eq_true (absent entry isEntry)).symm

theorem delExact (settled : Settled mount slot) (valid : Block.Valid name)
    (distinct : NamesDistinct mount slot n)
    (noLone : ∀ k < n, ¬ (mount.content slot k).Lone name) : DelExact mount slot n name := by
  rcases first_found name with missing | ⟨k, j, inDir, found, first⟩
  · refine formed.delExact_missing settled missing (fun entry isEntry => ?_) noLone
    rcases Occupied.mem_values.mp isEntry with ⟨place, isPlace, atPlace⟩
    rcases mem_dentryPlaces.mp isPlace with ⟨inside, isSlot⟩
    rintro rfl
    rcases exists_findEntry (formed.counted _ inside) valid isSlot atPlace with ⟨j, found⟩
    rw [missing place.1 inside] at found
    cases found
  · have keeps : (mount.content slot k).cnt ≠ 1 := fun isOne =>
      noLone k inDir ((lone_iff (formed.counted k inDir) valid).mpr ⟨j, found, isOne⟩)
    rw [DelExact, Yields, formed.dentryDel_eq, ← Yields]
    refine (formed.delInFrom_yields settled.idle inDir found keeps first).mono ?_
    rintro _ final rfl
    rcases Mount.dentry_of_findEntry valid inDir found with ⟨isPlace, atPlace⟩
    have cleared : Block.Cleared (mount.content slot k) ((mount.content slot k).delEntry j) j :=
      cleared_del (findEntry_slot found).1
    have wasLive : (mount.content slot k).live j = true := by
      rw [live_iff, (findEntry_eq_some valid found).2]
      exact valid.1
    have counted := cleared.counted (findEntry_slot found).1 wasLive (formed.counted k inDir)
    refine ⟨⟨n, formed.withContent inDir _ counted, ?_⟩,
      fun k inDir lone => absurd lone (noLone k inDir), fun missing => ?_⟩
    · refine @Occupied.values_clear _ _ _ _ _ (k, j) _ ?_ ?_ ?_ ?_
      · rw [formed.dentry_withContent inDir _ isPlace, if_pos rfl]
        exact entry_eq_none cleared.dead
      · intro other isOther different
        rw [formed.dentry_withContent inDir _ isOther]
        split
        case isTrue here =>
          have otherSlot : other.2 ≠ j := fun same => different (Prod.ext here same)
          rw [cleared.entry_other (mem_dentryPlaces.mp isOther).2 otherSlot, Mount.dentry, here]
        case isFalse => rfl
      · intro value atSlot
        rw [atPlace] at atSlot
        cases atSlot
        simp
      · rintro other isOther different ⟨otherName, inum⟩ atOther
        rw [decide_eq_true_eq]
        rintro rfl
        exact different (distinct other isOther (k, j) isPlace _ _ _ atOther atPlace)
    · exact absurd rfl (missing _ (Occupied.mem_values.mpr ⟨(k, j), isPlace, atPlace⟩))

theorem not_delExact (settled : Settled mount slot) {k j : Nat} (inDir : k < n)
    (found : findEntry (mount.content slot k) name = some j)
    (isOne : (mount.content slot k).cnt = 1)
    (first : ∀ i < k, findEntry (mount.content slot i) name = none) :
    ¬ DelExact mount slot n name := by
  rintro ⟨result, final, ran, ⟨n', formed', _⟩, _⟩
  rw [formed.dentryDel_eq] at ran
  exact formed'.not_holdsClearIndex
    (formed.delInFrom_lone settled inDir found isOne first result final ran)

theorem not_delExact_lone (settled : Settled mount slot) (valid : Block.Valid name)
    (distinct : NamesDistinct mount slot n) {k : Nat} (inDir : k < n)
    (lone : (mount.content slot k).Lone name) : ¬ DelExact mount slot n name := by
  rcases (lone_iff (formed.counted k inDir) valid).mp lone with ⟨j, found, isOne⟩
  refine formed.not_delExact settled inDir found isOne fun i before => ?_
  cases earlier : findEntry (mount.content slot i) name with
  | none => rfl
  | some other =>
    rcases Mount.dentry_of_findEntry valid inDir found with ⟨isPlace, atPlace⟩
    rcases Mount.dentry_of_findEntry valid (Nat.lt_trans before inDir) earlier with
      ⟨isOther, atOther⟩
    have same := distinct _ isOther _ isPlace _ _ _ atOther atPlace
    rw [Prod.mk.injEq] at same
    omega

/-- A cleared slot that is found is counted out, although no entry goes. -/
theorem not_delExact_nil (settled : Settled mount slot) {k j : Nat} (inDir : k < n)
    (found : findEntry (mount.content slot k) [] = some j)
    (first : ∀ i < k, findEntry (mount.content slot i) [] = none) : ¬ DelExact mount slot n [] := by
  by_cases isOne : (mount.content slot k).cnt = 1
  · exact formed.not_delExact settled inDir found isOne first
  · rintro ⟨result, final, ran, _, _, unchanged⟩
    have same := unchanged (absent_of_not_valid fun valid => valid.1 rfl).1
    rcases formed.delInFrom_yields settled.idle inDir found isOne first with
      ⟨_, other, otherRan, rfl⟩
    rw [formed.dentryDel_eq, otherRan] at ran
    cases ran
    have sameBlock := congrArg (fun mount => (mount.content slot k).cnt) same
    simp only [formed.content_withContent inDir _ inDir, if_true] at sameBlock
    rw [delEntry, (cleared_del (findEntry_slot found).1).cnt] at sameBlock
    bv_omega

end DirFormed

/-- An entry is deleted right exactly if it is not the only one of its block, and the empty
name if no block has a cleared slot among its entries. -/
theorem delExact_iff (settled : Settled mount slot) (formed : DirFormed mount slot n)
    (distinct : NamesDistinct mount slot n) (noNul : 0 ∉ name) :
    DelExact mount slot n name ↔ (∀ k < n, ¬ (mount.content slot k).Lone name) ∧
      (name = [] → ∀ k < n, (mount.content slot k).Compact) := by
  by_cases valid : Block.Valid name
  · rw [and_iff_left fun empty => absurd empty valid.1]
    constructor
    · exact fun holds k inDir lone => formed.not_delExact_lone settled valid distinct inDir lone holds
    · exact formed.delExact settled valid distinct
  · rcases absent_of_not_valid valid with ⟨absent, noLone⟩
    rw [and_iff_right noLone]
    by_cases empty : name = []
    · subst empty
      refine ⟨fun holds _ => ?_, fun compact => ?_⟩
      · rcases first_found [] with missing | ⟨k, j, inDir, found, first⟩
        · exact fun k inDir => findEntry_nil.mp (missing k inDir)
        · exact absurd holds (formed.not_delExact_nil settled inDir found first)
      · exact formed.delExact_missing settled
          (fun k inDir => findEntry_nil.mpr (compact rfl k inDir)) absent noLone
    · have long : DLENGTH < name.length := by
        by_contra short
        exact valid ⟨empty, Nat.not_lt.mp short, noNul⟩
      refine iff_of_true ?_ fun isEmpty => absurd isEmpty empty
      exact formed.delExact_missing settled (fun k _ => findEntry_long noNul long) absent noLone

def twoEntries : Block := setEntry (setEntry ((0 : Block).setU64 0 2) 1 5 [97]) 2 6 [98]

theorem entry_twoEntries : ∀ j ∈ List.range' 1 Block.dentryMax, twoEntries.entry j =
    if j = 1 then some ([97], 5) else if j = 2 then some ([98], 6) else none := by
  decide +kernel

theorem namesDistinct_twoEntries : NamesDistinct (smallDir 1 twoEntries) 0 1 := by
  intro place isPlace other isOther name first second atPlace atOther
  rcases mem_dentryPlaces.mp isPlace with ⟨inside, isSlot⟩
  rcases mem_dentryPlaces.mp isOther with ⟨otherInside, otherSlot⟩
  have block : place.1 = 0 := Nat.lt_one_iff.mp inside
  have otherBlock : other.1 = 0 := Nat.lt_one_iff.mp otherInside
  rw [Mount.dentry, block, content_smallDir, entry_twoEntries _ (Block.Slot.mem_range.mpr isSlot)]
    at atPlace
  rw [Mount.dentry, otherBlock, content_smallDir,
    entry_twoEntries _ (Block.Slot.mem_range.mpr otherSlot)] at atOther
  refine Prod.ext (block.trans otherBlock.symm) ?_
  split at atPlace
  · split at atOther
    · omega
    · split at atOther
      · cases atPlace
        cases atOther
      · cases atOther
  · split at atPlace
    · split at atOther
      · cases atPlace
        cases atOther
      · split at atOther
        · omega
        · cases atOther
    · cases atPlace

theorem delExact_twoEntries : DelExact (smallDir 1 twoEntries) 0 1 [97] := by
  refine (delExact_iff (settled_smallDir _ _)
    (dirFormed_smallDir (by decide +kernel) (by decide +kernel))
    namesDistinct_twoEntries (by decide)).mpr ⟨?_, by rintro ⟨⟩⟩
  rintro k inside ⟨inum, only⟩
  obtain rfl : k = 0 := Nat.lt_one_iff.mp inside
  have length : twoEntries.entries.length = 2 := by decide +kernel
  rw [content_smallDir] at only
  rw [only] at length
  cases length

/-- The only entry of a block cannot be deleted. -/
theorem dentryDel_panics : DirFormed (smallDir 1 (setEntry ((0 : Block).setU64 0 1) 1 5 [97])) 0 1 ∧
    (dentryDel 0 [97] (smallDir 1 (setEntry ((0 : Block).setU64 0 1) 1 5 [97]))).map (fun _ => ()) =
      .error (.panic "sleep_get") :=
  ⟨dirFormed_smallDir (by decide +kernel) (by decide +kernel), by decide +kernel⟩

end Tnix.Fs
