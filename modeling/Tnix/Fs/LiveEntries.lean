import Mathlib.Data.List.TakeWhile
import Tnix.Fs.PathResolution

/-! # Which entries `dentry_find` follows

A slot that `dentry_del` cleared has an empty name, and `parse_path` returns an empty name
for two slashes in a row. So a lookup of the empty name stops at the first cleared slot and
follows the inode number that was left there. -/

namespace Tnix.Fs

open Program

namespace Block

/-- The slot is counted in the header of the block, and its name is not empty. -/
def LiveEntry (data : Block) (j : Nat) : Prop :=
  (List.range' 1 (j - 1)).countP data.live < data.cnt.toNat ∧ data.live j = true

/-- The cleared slots come after the live ones. -/
def Compact (data : Block) : Prop :=
  ∀ j, Slot j → data.live j = false →
    data.cnt.toNat ≤ (List.range' 1 (j - 1)).countP data.live

theorem dentryNameEqual_nil (data : Block) (j : Nat) :
    data.dentryNameEqual j [] = !data.live j := by
  rw [dentryNameEqual, DLENGTH, dentryNameEqualFrom, live, List.getD_nil]
  by_cases dead : data.dentryName j 0 = 0
  · rw [if_neg (not_not_intro dead), if_pos dead, dead]
    rfl
  · rw [if_pos dead]
    simp [dead]

variable {data : Block}

theorem live_of_dentryNameEqual {j : Nat} {name : List UInt8} (nonempty : name ≠ [])
    (noNul : 0 ∉ name) (equal : data.dentryNameEqual j name = true) :
    data.live j = true := by
  cases name with
  | nil => exact absurd rfl nonempty
  | cons byte rest =>
    rw [dentryNameEqual, DLENGTH, dentryNameEqualFrom, List.getD_cons_zero] at equal
    split at equal
    case isTrue => cases equal
    case isFalse same =>
      rw [live, not_not.mp same, bne_iff_ne]
      rintro rfl
      exact noNul List.mem_cons_self

theorem findEntry_before {name : List UInt8} {j : Nat} (found : findEntry data name = some j) :
    (List.range' 1 (j - 1)).countP data.live < data.cnt.toNat := by
  have before := (findEntryFrom_some dentryMax 1 0 found).2.2.2
  rwa [Nat.zero_add] at before

theorem findEntry_nil : findEntry data [] = none ↔ data.Compact := by
  constructor
  · intro missing j slot dead
    have late := findEntryFrom_none dentryMax 1 0 missing slot.1 (by have := slot.2; omega)
      (by rw [dentryNameEqual_nil, dead]; rfl)
    rwa [Nat.zero_add] at late
  · intro compact
    cases found : findEntry data [] with
    | none => rfl
    | some j =>
      rcases findEntry_slot found with ⟨slot, equal⟩
      rw [dentryNameEqual_nil, Bool.not_eq_true'] at equal
      exact absurd (findEntry_before found) (Nat.not_lt.mpr (compact j slot equal))

end Block

variable {Task : Type} {mount : Mount Task}

/-! ## The scan -/

/-- The loop over the blocks up to the entry that it follows. -/
def scanFrom (cur : Fin NINODE) (name : List UInt8) :
    Nat → Nat → FsM Task (Option (IoBuf × Nat))
  | 0, _ => return none
  | remaining + 1, i => do
    let b ← dataBlockGet cur i
    match findEntry b.data name with
    | some j => return some (b, j)
    | none => do
      brelse b
      scanFrom cur name remaining (i + 1)

def follow (cur : Fin NINODE) : Option (IoBuf × Nat) → FsM Task (Option (Option (Fin NINODE)))
  | none => return none
  | some (b, j) => do
    iput cur
    let found ← iget (b.data.dentryInum j)
    brelse b
    return some found

theorem findInFrom_eq (cur : Fin NINODE) (name : List UInt8) (remaining : Nat) : ∀ i,
    findInFrom cur name remaining i =
      (scanFrom cur name remaining i >>= follow cur : FsM Task _) := by
  induction remaining with
  | zero =>
    intro i
    rw [findInFrom, scanFrom, pure_bind, follow]
  | succ remaining induction =>
    intro i
    rw [findInFrom, scanFrom, bind_assoc]
    congr 1
    funext b
    cases findEntry b.data name with
    | some j =>
      simp only
      rw [pure_bind, follow]
    | none =>
      simp only
      rw [bind_assoc, induction]

section
variable {slot : Fin NINODE} {name : List UInt8}

theorem dataBlockGet_outside {k : Nat} (outside : maxBlocks ≤ k) :
    Ensures (dataBlockGet slot k) mount fun _ _ => False := by
  simp only [maxBlocks, NDIRECT, NINDIRECT, IDX_CNT_PER_INDIRECT_BLCOK, BSIZE] at outside
  rw [dataBlockGet, if_neg (by simp only [NDIRECT]; omega)]
  simp only [ensures_bind, ensures_iblockAt]
  intro inside
  simp only [NDIRECT, NINDIRECT, IDX_CNT_PER_INDIRECT_BLCOK, BSIZE] at inside
  omega

theorem scanFrom_ensures (remaining : Nat) : ∀ (i : Nat) (mount : Mount Task), mount.held = [] →
    Ensures (scanFrom slot name remaining i) mount fun result final => match result with
      | none => final = mount
      | some (b, j) => findEntry b.data name = some j ∧
          final = { mount with held := [b.blockno] } ∧
          ∃ k < i + remaining, k < maxBlocks ∧
            b.data = mount.disk (mount.blockAt slot k).toNat := by
  induction remaining with
  | zero =>
    intro i mount _
    rw [scanFrom, ensures_pure]
  | succ remaining induction =>
    intro i mount idle
    by_cases inRange : i < maxBlocks
    · rcases @dataBlockGet_yields _ mount slot idle i inRange with ⟨_, _, ran, rfl, rfl⟩
      rw [scanFrom, ensures_bind, ensures_iff_of_ok ran]
      cases found : findEntry (mount.disk (mount.blockAt slot i).toNat) name with
      | some j =>
        simp only
        rw [ensures_pure]
        exact ⟨found, rfl, i, by omega, inRange, rfl⟩
      | none =>
        simp only
        rw [ensures_bind, ensures_iff_of_ok (brelse_head rfl)]
        have closed : ({ mount with held := [] } : Mount Task) = mount := by rw [← idle]
        rw [closed]
        refine (induction (i + 1) mount idle).mono ?_
        intro result final outcome
        cases result with
        | none => exact outcome
        | some entry =>
          rcases outcome with ⟨isEntry, held, k, less, inFile, same⟩
          exact ⟨isEntry, held, k, by omega, inFile, same⟩
    · rw [scanFrom, ensures_bind]
      exact (dataBlockGet_outside (Nat.not_lt.mp inRange)).mono fun _ _ => False.elim

theorem scanFrom_finds (idle : mount.held = []) {k : Nat} (inFile : k < maxBlocks)
    (found : findEntry (mount.disk (mount.blockAt slot k).toNat) name ≠ none) (remaining : Nat) :
    ∀ i, i ≤ k → k < i + remaining →
      ∃ b j final, scanFrom slot name remaining i mount = .ok (some (b, j), final) := by
  induction remaining with
  | zero =>
    intro i atLeast less
    omega
  | succ remaining induction =>
    intro i atLeast less
    rcases @dataBlockGet_yields _ mount slot idle i (by omega) with ⟨_, _, ran, rfl, rfl⟩
    rw [scanFrom, bind_of_ok ran]
    cases here : findEntry (mount.disk (mount.blockAt slot i).toNat) name with
    | some j =>
      simp only
      exact ⟨_, j, _, rfl⟩
    | none =>
      have later : i ≠ k := by
        rintro rfl
        exact found here
      have closed : ({ mount with held := [] } : Mount Task) = mount := by rw [← idle]
      simp only
      rw [bind_of_ok (brelse_head rfl), closed]
      exact induction (i + 1) (by omega) (by omega)

end

theorem ensures_iget {inum : UInt32} : Ensures (iget inum) mount fun found final =>
    final.held = mount.held ∧ ∀ slot, found = some slot → Keyed final slot inum := by
  simp only [iget, ensures_bind, ensures_get]
  cases hit : findInode mount fun inode => inode.sb.isSome && inode.inum == inum with
  | some slot =>
    simp only [ensures_bind, ensures_getInode, ensures_setInode, ensures_pure]
    refine ⟨trivial, fun _ same => ?_⟩
    cases same
    have test := List.find?_some hit
    simpa [Keyed] using test
  | none =>
    simp only [iexist, ensures_bind, ensures_get, ensures_bread, ensures_brelse]
    intro _ _ _
    rw [ensures_pure]
    split
    case isFalse =>
      rw [ensures_pure, List.erase_cons_head]
      exact ⟨rfl, fun _ same => by cases same⟩
    case isTrue =>
      simp only [ensures_bind, ensures_get]
      split
      case h_1 => rw [ensures_throw]; trivial
      case h_2 slot _ =>
        simp only [iread, ensures_bind, ensures_get, ensures_getInode, ensures_setInode,
          ensures_bread, ensures_brelse, ensures_pure]
        intro _ _ _
        rw [List.erase_cons_head, List.erase_cons_head]
        refine ⟨rfl, fun _ same => ?_⟩
        cases same
        simp [Keyed]

/-! ## The loop over the names -/

structure Turn (Task : Type) where
  cur : Option (Fin NINODE)
  path : List UInt8
  mount : Mount Task

namespace Turn

structure LooksUp (turn : Turn Task) (slot : Fin NINODE) (name rest : List UInt8) : Prop where
  cur : turn.cur = some slot
  parsed : parsePath turn.path turn.mount = .ok (some (name, rest), turn.mount)

def blockCount (turn : Turn Task) (slot : Fin NINODE) : Nat :=
  (iblockCnt (turn.mount.icache slot).di).toNat

/-- The turn follows the inode number in a slot of a block. -/
def Follows (turn : Turn Task) (b : IoBuf) (j : Nat) : Prop :=
  ∃ slot name rest scanned, turn.LooksUp slot name rest ∧
    scanFrom slot name (turn.blockCount slot) 0 turn.mount = .ok (some (b, j), scanned)

def Next (turn after : Turn Task) : Prop :=
  ∃ slot name, turn.LooksUp slot name after.path ∧
    findInFrom slot name (turn.blockCount slot) 0 turn.mount = .ok (some after.cur, after.mount)

end Turn

inductive Reached (mount : Mount Task) (task : Task) (path : List UInt8) : Turn Task → Prop
  | absolute {turn : Turn Task} (isAbsolute : path = slash :: turn.path)
      (got : iget (UInt32.ofNat ROOTINUM) mount = .ok (turn.cur, turn.mount)) :
      Reached mount task path turn
  | relative {turn : Turn Task} {fsStruct : FsStruct} (isRelative : path.head? ≠ some slash)
      (same : turn.path = path) (running : mount.tasks task = some fsStruct)
      (got : iget (mount.icache fsStruct.cwd).inum mount = .ok (turn.cur, turn.mount)) :
      Reached mount task path turn
  | next {turn after : Turn Task} (reached : Reached mount task path turn)
      (moves : turn.Next after) : Reached mount task path after

variable {turn : Turn Task}

theorem Turn.looksUp_iff {slot : Fin NINODE} {name rest : List UInt8} :
    turn.LooksUp slot name rest ↔ turn.cur = some slot ∧ slash ∉ name ∧
      ((turn.path = name ++ slash :: rest ∧ name.length ≤ DLENGTH) ∨
        (turn.path = name ∧ name ≠ [] ∧ rest = [] ∧ name.length < DLENGTH)) := by
  constructor
  · rintro ⟨cur, parsed⟩
    have whole := turn.path.takeWhile_append_dropWhile (p := (· ≠ slash))
    have noSlash : slash ∉ turn.path.takeWhile (· ≠ slash) := by
      intro isByte
      have different := List.mem_takeWhile_imp isByte
      simp at different
    have stops := List.head?_dropWhile_not (· ≠ slash) turn.path
    rw [parsePath] at parsed
    split at parsed
    case isTrue => cases parsed
    case isFalse nonempty =>
      cases dropped : turn.path.dropWhile (· ≠ slash) with
      | nil =>
        rw [dropped] at parsed whole
        rw [List.append_nil] at whole
        dsimp only at parsed
        split at parsed
        case isTrue => cases parsed
        case isFalse short =>
          cases parsed
          rw [whole] at noSlash short ⊢
          exact ⟨cur, noSlash, .inr ⟨rfl, nonempty, rfl, by omega⟩⟩
      | cons byte bytes =>
        rw [dropped] at parsed whole stops
        have isSlash : byte = slash := by simpa using stops
        rw [isSlash] at whole
        dsimp only at parsed
        split at parsed
        case isTrue => cases parsed
        case isFalse short =>
          cases parsed
          exact ⟨cur, noSlash, .inl ⟨whole.symm, by omega⟩⟩
  · rintro ⟨cur, noSlash, ⟨same, short⟩ | ⟨same, nonempty, rfl, short⟩⟩
    · have parts := @takeWhile_name name (slash :: rest) noSlash (.inr rfl)
      refine ⟨cur, ?_⟩
      rw [parsePath, if_neg (by simp [same]), same, parts.1, parts.2]
      dsimp only
      rw [if_neg (Nat.not_lt.mpr short)]
      rfl
    · have parts := @takeWhile_name name [] noSlash (.inl rfl)
      rw [List.append_nil] at parts
      refine ⟨cur, ?_⟩
      rw [parsePath, same, if_neg nonempty, parts.1, parts.2]
      dsimp only
      rw [if_neg (Nat.not_lt.mpr short)]
      rfl

theorem Turn.Next.shorter {after : Turn Task} (moves : turn.Next after) :
    after.path.length < turn.path.length := by
  rcases moves with ⟨_, _, looksUp, _⟩
  rcases Turn.looksUp_iff.mp looksUp with ⟨_, _, ⟨same, _⟩ | ⟨same, nonempty, atEnd, _⟩⟩
  · rw [same, List.length_append, List.length_cons]
    omega
  · rw [atEnd, same]
    exact List.length_pos_of_ne_nil nonempty

theorem Turn.Next.walkFrom_eq {after : Turn Task} (moves : turn.Next after) (fuel : Nat) :
    walkFrom (fuel + 1) turn.cur turn.path turn.mount =
      walkFrom fuel after.cur after.path after.mount := by
  rcases moves with ⟨slot, name, ⟨cur, parsed⟩, found⟩
  rw [walkFrom, bind_of_ok parsed, cur]
  simp only
  rw [bind_of_ok rfl]
  exact bind_of_ok found

section
variable {task : Task} {path : List UInt8} {turn : Turn Task}

section
variable (reached : Reached mount task path turn)
include reached

theorem Reached.dentryFind_eq : ∃ fuel, turn.path.length ≤ fuel ∧
      dentryFind task path mount = walkFrom fuel turn.cur turn.path turn.mount := by
  induction reached with
  | absolute isAbsolute got =>
    subst isAbsolute
    refine ⟨_, Nat.le_succ _, ?_⟩
    rw [dentryFind, if_pos List.head?_cons]
    exact bind_of_ok got
  | relative isRelative same running got =>
    refine ⟨path.length, Nat.le_of_eq (congrArg _ same), ?_⟩
    rw [dentryFind, if_neg isRelative, bind_of_ok (getFsStruct_eq running), same]
    exact (bind_of_ok rfl).trans (bind_of_ok got)
  | @next turn after reached moves induction =>
    rcases induction with ⟨fuel, enough, same⟩
    have less := moves.shorter
    cases fuel with
    | zero => omega
    | succ fuel => exact ⟨fuel, by omega, same.trans (moves.walkFrom_eq fuel)⟩

theorem Reached.noNul (noNul : 0 ∉ path) : 0 ∉ turn.path := by
  induction reached with
  | absolute isAbsolute =>
    rw [isAbsolute] at noNul
    exact fun isByte => noNul (List.mem_cons_of_mem _ isByte)
  | relative _ same =>
    rwa [same]
  | next reached moves induction =>
    rcases moves with ⟨_, _, looksUp, _⟩
    intro isByte
    rcases Turn.looksUp_iff.mp looksUp with ⟨_, _, ⟨same, _⟩ | ⟨_, _, atEnd, _⟩⟩
    · refine induction ?_
      rw [same]
      exact List.mem_append_right _ (List.mem_cons_of_mem _ isByte)
    · rw [atEnd] at isByte
      cases isByte

theorem Reached.idle (idle : mount.held = []) : turn.mount.held = [] := by
  induction reached with
  | absolute _ got => rw [(ensures_iget _ _ got).1, idle]
  | relative _ _ _ got => rw [(ensures_iget _ _ got).1, idle]
  | @next turn after reached moves induction =>
    rcases moves with ⟨slot, name, _, found⟩
    rw [findInFrom_eq] at found
    have closes : Ensures (scanFrom slot name (turn.blockCount slot) 0 >>= follow slot) turn.mount
        fun result final => ∀ cur, result = some cur → final.held = [] := by
      rw [ensures_bind]
      refine (scanFrom_ensures _ 0 turn.mount induction).mono ?_
      intro result scanned outcome
      cases result with
      | none =>
        rw [follow, ensures_pure]
        intro cur same
        cases same
      | some entry =>
        rcases outcome with ⟨_, held, _⟩
        rw [follow, ensures_bind, ensures_iff_of_ok iput_eq, ensures_bind]
        refine ensures_iget.mono ?_
        rintro found got ⟨sameHeld, _⟩
        rw [ensures_bind, ensures_brelse]
        intro _
        rw [ensures_pure]
        intro _ _
        rw [sameHeld, held]
        exact List.erase_cons_head _ _
    exact closes _ _ found _ rfl

end

/-- The cleared slots of the inode come after the live ones, in each of its blocks. -/
def Turn.Compact (turn : Turn Task) (slot : Fin NINODE) : Prop :=
  ∀ k < turn.blockCount slot, k < maxBlocks →
    (turn.mount.disk (turn.mount.blockAt slot k).toNat).Compact

theorem Turn.LooksUp.follows_dead {slot : Fin NINODE} {rest : List UInt8}
    (looksUp : turn.LooksUp slot [] rest) (idle : turn.mount.held = [])
    (holes : ¬ turn.Compact slot) :
    ∃ b j, turn.Follows b j ∧ ¬ b.data.LiveEntry j := by
  simp only [Turn.Compact, not_forall] at holes
  rcases holes with ⟨k, less, inFile, hole⟩
  rw [← Block.findEntry_nil] at hole
  rcases scanFrom_finds idle inFile hole (turn.blockCount slot) 0 (Nat.zero_le k)
    (by rwa [Nat.zero_add]) with ⟨b, j, final, ran⟩
  refine ⟨b, j, ⟨slot, [], rest, final, looksUp, ran⟩, fun live => ?_⟩
  have found := (scanFrom_ensures _ 0 turn.mount idle _ _ ran).1
  have equal := (Block.findEntry_slot found).2
  rw [Block.dentryNameEqual_nil, live.2] at equal
  cases equal

theorem Turn.Follows.liveEntry {b : IoBuf} {j : Nat} (follows : turn.Follows b j)
    (idle : turn.mount.held = []) (noNul : 0 ∉ turn.path)
    (compact : ∀ slot rest, turn.LooksUp slot [] rest → turn.Compact slot) :
    b.data.LiveEntry j := by
  rcases follows with ⟨slot, name, rest, scanned, looksUp, ran⟩
  rcases scanFrom_ensures _ 0 turn.mount idle _ _ ran with ⟨found, _, k, less, inFile, same⟩
  refine ⟨Block.findEntry_before found, ?_⟩
  by_cases empty : name = []
  · subst empty
    have isCompact := compact slot rest looksUp k (by rwa [Nat.zero_add] at less) inFile
    rw [← same, ← Block.findEntry_nil, found] at isCompact
    cases isCompact
  · refine Block.live_of_dentryNameEqual empty ?_ (Block.findEntry_slot found).2
    intro isByte
    rcases Turn.looksUp_iff.mp looksUp with ⟨_, _, ⟨samePath, _⟩ | ⟨samePath, _⟩⟩
    · exact noNul (samePath ▸ List.mem_append_left _ isByte)
    · exact noNul (samePath ▸ isByte)

/-- `dentry_find` follows live entries only, if and only if it does not look the empty name
up where a slot was cleared before the last live one. -/
theorem follows_live_iff (idle : mount.held = []) (task : Task) (noNul : 0 ∉ path) :
    (∀ turn, Reached mount task path turn → ∀ b j, turn.Follows b j → b.data.LiveEntry j) ↔
      ∀ turn, Reached mount task path turn →
        ∀ slot rest, turn.LooksUp slot [] rest → turn.Compact slot := by
  constructor
  · intro live turn reached slot rest looksUp
    by_contra holes
    rcases looksUp.follows_dead (reached.idle idle) holes with ⟨b, j, follows, dead⟩
    exact dead (live turn reached b j follows)
  · intro compact turn reached b j follows
    exact follows.liveEntry (reached.idle idle) (reached.noNul noNul) (compact turn reached)

end

/-- The walk of `/a` looks no empty name up. -/
theorem follows_live_a : 0 ∉ [slash, 97] ∧
    ∀ turn, Reached (rootDir entryBlock 0) () [slash, 97] turn →
      ∀ b j, turn.Follows b j → b.data.LiveEntry j := by
  have noSlash : ∀ turn, Reached (rootDir entryBlock 0) () [slash, 97] turn → slash ∉ turn.path := by
    intro turn reached
    induction reached with
    | absolute isAbsolute =>
      rw [← (List.cons_inj_right slash).mp isAbsolute]
      decide
    | relative isRelative => exact absurd rfl isRelative
    | next _ moves induction =>
      rcases moves with ⟨_, _, looksUp, _⟩
      rcases Turn.looksUp_iff.mp looksUp with ⟨_, _, ⟨same, _⟩ | ⟨_, _, atEnd, _⟩⟩
      · rw [same] at induction
        exact absurd (List.mem_append_right _ List.mem_cons_self) induction
      · rw [atEnd]
        exact List.not_mem_nil
  have noNul : 0 ∉ [slash, 97] := by decide
  refine ⟨noNul, (follows_live_iff rfl () noNul).mpr fun turn reached slot rest looksUp => ?_⟩
  rcases Turn.looksUp_iff.mp looksUp with ⟨_, _, ⟨same, _⟩ | ⟨_, nonempty, _⟩⟩
  · exact absurd (same ▸ List.mem_cons_self) (noSlash turn reached)
  · exact absurd rfl nonempty

/-- The block with entries `b` for inode 7 and `a` for inode 5, after `dentry_del` of `b`. -/
def clearedBlock : Block :=
  let data := clearName (setEntry (setEntry ((0 : Block).setU64 0 2) 1 7 [98]) 2 5 [97]) 1
  data.setU64 0 (data.cnt - 1)

theorem wellFormed_clearedBlock (refc : Nat) : WellFormed (rootDir clearedBlock refc) :=
  wellFormed_oneEntry 2 (by decide +kernel) (by decide +kernel) (by decide +kernel) refc

/-- The path `//` leads to the inode that the deleted entry was for. -/
theorem dentryFind_follows_cleared : WellFormed (rootDir clearedBlock 0) ∧
    (∃ turn, Reached (rootDir clearedBlock 0) () [slash, slash] turn ∧
      ∃ b j, turn.Follows b j ∧ ¬ b.data.LiveEntry j) ∧
    (dentryFind () [slash, slash] (rootDir clearedBlock 0)).map
      (fun ran => ran.1.map fun slot => (ran.2.icache slot).inum) = .ok (some 7) := by
  refine ⟨wellFormed_clearedBlock 0, ?_, by decide +kernel⟩
  let turn : Turn Unit := ⟨some 0, [slash], (rootDir clearedBlock 0).withInode 0
    { (rootDir clearedBlock 0).icache 0 with refc := 2 }⟩
  have looksUp : turn.LooksUp 0 [] [] := ⟨rfl, rfl⟩
  refine ⟨turn, .absolute rfl rfl, looksUp.follows_dead rfl fun compact => ?_⟩
  have block : turn.mount.disk (turn.mount.blockAt 0 0).toNat = clearedBlock := rfl
  have isCompact := compact 0 (by decide) (by decide)
  rw [block] at isCompact
  exact absurd (isCompact 1 ⟨by decide, by decide⟩ (by decide +kernel)) (by decide +kernel)

end Tnix.Fs
