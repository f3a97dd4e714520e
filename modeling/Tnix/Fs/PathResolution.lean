import Tnix.Fs.Lookup

/-! # Paths and live entries -/

namespace Tnix.Fs

open List Program

namespace Volume

def Leads (volume : Volume) (dir : UInt32) (name : List UInt8) (target : UInt32) : Prop :=
  ∃ place, volume.entry dir place = some (name, target)

inductive Walks (volume : Volume) : UInt32 → List (List UInt8) → UInt32 → Prop
  | nil (start : UInt32) : Walks volume start [] start
  | cons {start next target : UInt32} {name : List UInt8} {names : List (List UInt8)}
      (leads : volume.Leads start name next) (walks : Walks volume next names target) :
      Walks volume start (name :: names) target

/-- The directories can be scanned, their counts are right, the names of an entry are
distinct, and entries name inodes in use. -/
structure DirsFormed (volume : Volume) (sb : Superblock) : Prop where
  root : volume.IsDir (UInt32.ofNat ROOTINUM)
  readable : ∀ {dir}, volume.IsDir dir → volume.Readable sb dir
  counted : ∀ {dir k}, volume.IsDir dir → k < volume.blockCount dir →
    (volume.content dir k).Counted
  distinct : ∀ {dir place other name first second}, volume.entry dir place = some (name, first) →
    volume.entry dir other = some (name, second) → place = other
  inUse : ∀ {dir place name target}, volume.entry dir place = some (name, target) →
    volume.imap target = true

variable {volume : Volume} {sb : Superblock} {dir start target : UInt32} {name : List UInt8}

theorem entry_eq_some {place : Nat × Nat} : volume.entry dir place = some (name, target) ↔
    volume.IsDir dir ∧ place.1 < volume.blockCount dir ∧ Block.Slot place.2 ∧
      (volume.content dir place.1).live place.2 = true ∧
      (volume.content dir place.1).name place.2 = name ∧
      (volume.content dir place.1).dentryInum place.2 = target := by
  rw [entry, Block.Slot]
  split
  case isTrue live =>
    rw [Option.some.injEq, Prod.mk.injEq]
    simp [live]
  case isFalse dead =>
    refine iff_of_false (Option.some_ne_none _).symm ?_
    rintro ⟨isDir, inDir, ⟨first, last⟩, isLive, _⟩
    exact dead ⟨isDir, inDir, first, last, isLive⟩

theorem leads_of_lookup (isDir : volume.IsDir dir) (valid : Block.Valid name)
    (found : volume.lookup dir name = some target) : volume.Leads dir name target := by
  rcases exists_of_findSome?_eq_some found with ⟨k, inDir, inBlock⟩
  rcases Option.map_eq_some_iff.mp inBlock with ⟨j, entry, rfl⟩
  rcases Block.findEntry_eq_some valid entry with ⟨isSlot, sameName⟩
  refine ⟨(k, j), entry_eq_some.mpr ⟨isDir, mem_range.mp inDir, isSlot, ?_, sameName, rfl⟩⟩
  rw [Block.live_iff, sameName]
  exact valid.1

namespace DirsFormed

variable (formed : volume.DirsFormed sb)
include formed

theorem lookup_iff (isDir : volume.IsDir dir) (valid : Block.Valid name) :
    volume.lookup dir name = some target ↔ volume.Leads dir name target := by
  constructor
  · exact leads_of_lookup isDir valid
  · rintro ⟨place, atPlace⟩
    rcases entry_eq_some.mp atPlace with ⟨_, inDir, isSlot, _, sameName, _⟩
    cases found : volume.lookup dir name with
    | none =>
      have missing := findSome?_eq_none_iff.mp found place.1 (mem_range.mpr inDir)
      rw [Option.map_eq_none_iff] at missing
      exact absurd sameName
        (Block.findEntry_eq_none (formed.counted isDir inDir) valid missing isSlot)
    | some other =>
      rcases leads_of_lookup isDir valid found with ⟨otherPlace, atOther⟩
      have same := formed.distinct atOther atPlace
      subst same
      rw [atOther, Option.some.injEq, Prod.mk.injEq] at atPlace
      rw [atPlace.2]

variable {names : List (List UInt8)}

variable (valid : ∀ name ∈ names, Block.Valid name)
include valid

theorem walk_iff (through : ∀ front back place, names = front ++ back → back ≠ [] →
      volume.Walks start front place → volume.IsDir place) :
    volume.walk start names = some target ↔ volume.Walks start names target := by
  induction names generalizing start with
  | nil =>
    rw [walk, Option.some.injEq]
    constructor
    · rintro rfl
      exact .nil start
    · intro walks
      cases walks with
      | nil => rfl
  | cons name names induction =>
    have isDir := through [] _ start rfl (cons_ne_nil _ _) (.nil start)
    have nameValid := valid name mem_cons_self
    have rest : ∀ {next}, volume.Leads start name next →
        (volume.walk next names = some target ↔ volume.Walks next names target) := by
      intro next leads
      refine induction (fun other isName => valid other (mem_cons_of_mem _ isName)) ?_
      intro front back place parts more walks
      exact through (name :: front) back place (by rw [parts]; rfl) more (.cons leads walks)
    rw [walk, Option.bind_eq_some_iff]
    constructor
    · rintro ⟨next, found, walked⟩
      have leads := (formed.lookup_iff isDir nameValid).mp found
      exact .cons leads ((rest leads).mp walked)
    · intro walks
      cases walks with
      | cons leads walks =>
        exact ⟨_, (formed.lookup_iff isDir nameValid).mpr leads, (rest leads).mpr walks⟩

theorem passable (short : ∀ name ∈ names, name.length < DLENGTH)
    (through : ∀ front back place, names = front ++ back → back ≠ [] →
      volume.Walks start front place → volume.IsDir place) : volume.Passable sb start names := by
  induction names generalizing start with
  | nil => trivial
  | cons name names induction =>
    have isDir := through [] _ start rfl (cons_ne_nil _ _) (.nil start)
    refine ⟨formed.readable isDir, short name mem_cons_self, fun next found => ?_⟩
    have leads := (formed.lookup_iff isDir (valid name mem_cons_self)).mp found
    rcases leads with ⟨place, atPlace⟩
    refine ⟨formed.inUse atPlace, induction
      (fun other isName => valid other (mem_cons_of_mem _ isName))
      (fun other isName => short other (mem_cons_of_mem _ isName)) ?_⟩
    intro front back last parts more walks
    exact through (name :: front) back last (by rw [parts]; rfl) more
      (.cons ⟨place, atPlace⟩ walks)

end DirsFormed
end Volume

/-! ## Paths of proper names -/

/-- The names with single slashes between them, and one behind them if `trailing`. -/
def joinNames (trailing : Bool) : List (List UInt8) → List UInt8
  | [] => []
  | [name] => name ++ if trailing then [slash] else []
  | name :: next :: names => name ++ slash :: joinNames trailing (next :: names)

/-- A name of 1 to 27 bytes. -/
structure Proper (name : List UInt8) : Prop where
  valid : Block.Valid name
  short : name.length < DLENGTH
  noSlash : slash ∉ name

theorem takeWhile_name {name rest : List UInt8} (noSlash : slash ∉ name)
    (ends : rest = [] ∨ rest.head? = some slash) :
    (name ++ rest).takeWhile (· ≠ slash) = name ∧ (name ++ rest).dropWhile (· ≠ slash) = rest := by
  have all : ∀ byte ∈ name, decide (byte ≠ slash) = true := by
    intro byte isByte
    rw [decide_eq_true_eq]
    rintro rfl
    exact noSlash isByte
  rw [takeWhile_append_of_pos all, dropWhile_append_of_pos all]
  rcases ends with rfl | head
  · simp
  · cases rest with
    | nil => cases head
    | cons byte bytes =>
      cases head
      simp

theorem names_append {name rest : List UInt8} (nonempty : name ≠ []) (noSlash : slash ∉ name)
    (ends : rest = [] ∨ rest.head? = some slash) : names (name ++ rest) = name :: names rest.tail := by
  have parts := takeWhile_name noSlash ends
  rw [names_cons (append_ne_nil_of_left_ne_nil nonempty rest), parts.1, parts.2]

variable {components : List (List UInt8)}

theorem names_joinNames (trailing : Bool) (proper : ∀ name ∈ components, Proper name) :
    names (joinNames trailing components) = components := by
  induction components with
  | nil => rfl
  | cons name rest induction =>
    have first := proper name mem_cons_self
    cases rest with
    | nil =>
      rw [joinNames, names_append first.valid.1 first.noSlash]
      · cases trailing <;> rfl
      · cases trailing
        · exact .inl rfl
        · exact .inr rfl
    | cons next more =>
      rw [joinNames, names_append first.valid.1 first.noSlash (.inr rfl), tail_cons,
        induction fun other isName => proper other (mem_cons_of_mem _ isName)]

theorem head_joinNames (trailing : Bool) (proper : ∀ name ∈ components, Proper name) :
    (joinNames trailing components).head? ≠ some slash := by
  have front : ∀ {name : List UInt8}, Proper name → ∀ rest : List UInt8,
      (name ++ rest).head? ≠ some slash := by
    intro name isProper rest
    cases name with
    | nil => exact absurd rfl isProper.valid.1
    | cons byte bytes =>
      rw [cons_append, head?_cons, ne_eq, Option.some.injEq]
      rintro rfl
      exact isProper.noSlash mem_cons_self
  cases components with
  | nil => exact (Option.some_ne_none slash).symm
  | cons name rest =>
    have first := proper name mem_cons_self
    cases rest with
    | nil => exact front first _
    | cons next more => exact front first _

/-! ## Path resolution -/

section
variable {Task : Type}

structure WellFormed (mount : Mount Task) : Prop where
  geometry : mount.sb.Geometry
  idle : mount.held = []
  coherent : mount.Coherent
  dirs : mount.volume.DirsFormed mount.sb

/-- `dentry_find` returns the inode at the end of the walk with one reference more, or
`NULL` if there is no such walk; it fails only if all slots of the inode cache are
referenced. -/
structure Resolves (mount : Mount Task) (task : Task) (path : List UInt8) (start : UInt32)
    (components : List (List UInt8)) : Prop where
  outcome : YieldsOr (dentryFind task path) mount (Exhausted mount) fun found final =>
    match found with
    | some slot => ∃ target, Keyed final slot target ∧
        mount.volume.Walks start components target ∧
        ∀ inum, final.refOf inum = mount.refOf inum + if inum = target then 1 else 0
    | none => (∀ target, ¬ mount.volume.Walks start components target) ∧
        ∀ inum, final.refOf inum = mount.refOf inum

variable {mount : Mount Task} {task : Task} {fsStruct : FsStruct} {start : UInt32}
  {components : List (List UInt8)}

theorem resolves_of (formed : WellFormed mount) (running : mount.tasks task = some fsStruct)
    (proper : ∀ name ∈ components, Proper name)
    (through : ∀ front back place, components = front ++ back → back ≠ [] →
      mount.volume.Walks start front place → mount.volume.IsDir place) {path rest : List UInt8}
    (starts : (path = slash :: rest ∧ start = UInt32.ofNat ROOTINUM) ∨
      (path.head? ≠ some slash ∧ rest = path ∧ start = (mount.icache fsStruct.cwd).inum))
    (inUse : mount.volume.imap start = true) (sameNames : names rest = components) :
    Resolves mount task path start components := by
  have valid : ∀ name ∈ components, Block.Valid name := fun name isName => (proper name isName).valid
  have passable := formed.dirs.passable valid (fun name isName => (proper name isName).short) through
  rw [← sameNames] at passable
  refine ⟨(dentryFind_yieldsOr formed.geometry formed.coherent formed.idle running rest starts inUse
    passable).mono ?_ fun _ => id⟩
  rintro found final ⟨_, ended⟩
  rw [sameNames] at ended
  have walk := fun {target} => @Volume.DirsFormed.walk_iff _ _ start target formed.dirs _ valid through
  cases walked : mount.volume.walk start components with
  | some target =>
    rw [walked] at ended
    rcases ended with ⟨slot, rfl, arrived⟩
    exact ⟨target, arrived.keyed, walk.mp walked, arrived.refs⟩
  | none =>
    rw [walked] at ended
    rcases ended with ⟨rfl, left⟩
    refine ⟨fun target walks => ?_, left.refs⟩
    rw [walk.mpr walks] at walked
    cases walked

/-- A path of proper names leads where the walk from the root or from the working
directory leads. -/
theorem dentryFind_resolves (formed : WellFormed mount) (running : mount.tasks task = some fsStruct)
    (home : mount.volume.IsDir (mount.icache fsStruct.cwd).inum)
    (proper : ∀ name ∈ components, Proper name) (absolute trailing : Bool)
    (start : UInt32) (starts : start = if absolute = true then UInt32.ofNat ROOTINUM
      else (mount.icache fsStruct.cwd).inum)
    (through : ∀ front back place, components = front ++ back → back ≠ [] →
      mount.volume.Walks start front place → mount.volume.IsDir place) :
    Resolves mount task
      ((if absolute = true then [slash] else []) ++ joinNames trailing components) start
      components := by
  have sameNames := names_joinNames trailing proper
  cases absolute with
  | true =>
    rw [if_pos rfl] at starts
    subst starts
    exact resolves_of formed running proper through (.inl ⟨rfl, rfl⟩) formed.dirs.root.1 sameNames
  | false =>
    rw [if_neg Bool.false_ne_true] at starts
    subst starts
    exact resolves_of formed running proper through
      (.inr ⟨head_joinNames trailing proper, rfl, rfl⟩) home.1 sameNames

end

/-! ## A small tree -/

def rootDinode : Dinode := ⟨.DIRECTORY, 0, 1, 1024, fun i => if i.val = 0 then 701 else 0⟩

/-- All inodes are in use, and the root directory has one block. The first slot of the inode
cache is for the root directory, and the others have `refc` references each. -/
def rootDir (data : Block) (refc : Nat) : Mount Unit where
  sb := ⟨2, 3, 700, 701⟩
  disk blockno :=
    if blockno = 2 then BitVec.allOnes 8192
    else if blockno = 3 then (0 : Block).setDinode 0 rootDinode
    else if blockno = 700 then 1
    else if blockno = 701 then data else 0
  icache slot :=
    if slot = 0 then ⟨rootDinode, some (), 0, 1⟩
    else ⟨.blank, some (), UInt32.ofNat (100 + slot.val), refc⟩
  tasks _ := some ⟨0, fun _ => none, 0⟩
  files _ := .zero
  pipes _ := ⟨⟨0, 0, fun _ => 0⟩, 0⟩
  devsw _ := false
  held := []

theorem Block.dinode_zero (index : Nat) : (0 : Block).dinode index = Dinode.blank := by
  have zero : ∀ i, (0 : Block).u32 i = 0 := Block.u32_zero
  simp only [dinode, zero]
  rfl

section
variable (data : Block) (refc : Nat) {inum : UInt32}

theorem inodeCount_rootDir : (rootDir data refc).sb.inodeCount = 8192 := by
  have sb : (rootDir data refc).sb = ⟨2, 3, 700, 701⟩ := rfl
  rw [sb]
  decide

theorem imap_rootDir (inRange : inum.toNat < 8192) :
    (rootDir data refc).volume.imap inum = true := by
  have block : (rootDir data refc).disk ((rootDir data refc).sb.imap +
      inum.toNat / BIT_CNT_PER_BLOCK) = BitVec.allOnes 8192 := by
    have first : inum.toNat / BIT_CNT_PER_BLOCK = 0 := Nat.div_eq_of_lt inRange
    rw [first]
    rfl
  simp only [Mount.volume, inodeCount_rootDir, inRange, decide_true, Bool.true_and]
  rw [block, BitVec.getLsbD_allOnes, decide_eq_true_eq]
  exact Nat.mod_lt _ (by decide)

theorem ino_rootDir (inRange : inum.toNat < 8192) :
    (rootDir data refc).volume.ino inum = if inum = 0 then rootDinode else .blank := by
  simp only [Mount.volume, inodeCount_rootDir, if_pos inRange]
  by_cases first : inum.toNat / DINODE_CNT_PER_BLOCK = 0
  · have block : (rootDir data refc).disk ((rootDir data refc).sb.inodes +
        inum.toNat / DINODE_CNT_PER_BLOCK) = (0 : Block).setDinode 0 rootDinode := by
      rw [first]
      rfl
    have isRoot : inum.toNat % DINODE_CNT_PER_BLOCK = 0 ↔ inum = 0 := by
      rw [← UInt32.toNat_inj, UInt32.toNat_zero]
      simp only [DINODE_CNT_PER_BLOCK, BSIZE] at first ⊢
      omega
    rw [block, Block.dinode_setDinode _ _ (by decide), Block.dinode_zero]
    simp only [isRoot]
  · have notRoot : inum ≠ 0 := by
      rintro rfl
      exact first rfl
    have block : (rootDir data refc).disk ((rootDir data refc).sb.inodes +
        inum.toNat / DINODE_CNT_PER_BLOCK) = 0 := by
      have sb : (rootDir data refc).sb.inodes = 3 := rfl
      have inTable : inum.toNat / DINODE_CNT_PER_BLOCK ≤ 631 := by
        rw [show DINODE_CNT_PER_BLOCK = 13 from rfl]
        omega
      generalize inum.toNat / DINODE_CNT_PER_BLOCK = position at first inTable ⊢
      rw [sb, rootDir]
      simp only
      rw [if_neg (by omega), if_neg (by omega), if_neg (by omega), if_neg (by omega)]
    rw [block, Block.dinode_zero, if_neg notRoot]

theorem isDir_rootDir : (rootDir data refc).volume.IsDir inum ↔ inum = 0 := by
  constructor
  · rintro ⟨inUse, isDir⟩
    have inRange : inum.toNat < 8192 := by
      simp only [Mount.volume, inodeCount_rootDir, Bool.and_eq_true, decide_eq_true_eq] at inUse
      exact inUse.1
    by_contra notRoot
    rw [ino_rootDir data refc inRange, if_neg notRoot] at isDir
    cases isDir
  · rintro rfl
    refine ⟨imap_rootDir data refc (by decide), ?_⟩
    rw [ino_rootDir data refc (by decide), if_pos rfl]
    rfl

theorem blockCount_rootDir : (rootDir data refc).volume.blockCount 0 = 1 := by
  rw [Volume.blockCount, ino_rootDir data refc (by decide)]
  rfl

theorem content_rootDir : (rootDir data refc).volume.content 0 0 = data := by
  have block : (rootDir data refc).volume.block 0 0 = 701 := by
    rw [Volume.block, if_pos (by decide), ino_rootDir data refc (by decide)]
    rfl
  have isData : (rootDir data refc).sb.IsData 701 :=
    show Superblock.IsData ⟨2, 3, 700, 701⟩ 701 by decide
  have disk : (rootDir data refc).disk 701 = data := rfl
  rw [Volume.content, block]
  simp only [Mount.volume, if_pos isData]
  exact disk

theorem readable_rootDir : (rootDir data refc).volume.Readable (rootDir data refc).sb 0 := by
  constructor
  · rw [blockCount_rootDir]
    decide
  · intro k inDir
    rw [blockCount_rootDir, Nat.lt_one_iff] at inDir
    rw [inDir, Volume.block, if_pos (by decide), ino_rootDir data refc (by decide)]
    exact show Superblock.IsData ⟨2, 3, 700, 701⟩ 701 by decide
  · intro k inDir indirect
    rw [blockCount_rootDir, Nat.lt_one_iff] at inDir
    rw [inDir] at indirect
    exact absurd indirect (by decide)

theorem coherent_rootDir : (rootDir data refc).Coherent := by
  have number : ∀ {slot inum}, Keyed (rootDir data refc) slot inum →
      inum = if slot = 0 then 0 else UInt32.ofNat (100 + slot.val) := by
    intro slot inum keyed
    rw [← keyed.2, rootDir]
    simp only
    split
    case isTrue => rfl
    case isFalse => rfl
  have value : ∀ slot : Fin NINODE, (UInt32.ofNat (100 + slot.val)).toNat = 100 + slot.val := by
    intro slot
    have bound := slot.isLt
    simp only [NINODE] at bound
    rw [UInt32.toNat_ofNat', Nat.mod_eq_of_lt (by omega)]
  constructor
  · intro slot other inum keyed otherKeyed
    have same := (number keyed).symm.trans (number otherKeyed)
    rw [← UInt32.toNat_inj] at same
    split at same
    case isTrue first =>
      split at same
      case isTrue second => rw [first, second]
      case isFalse =>
        rw [value, UInt32.toNat_zero] at same
        omega
    case isFalse =>
      split at same
      case isTrue =>
        rw [value, UInt32.toNat_zero] at same
        omega
      case isFalse =>
        rw [value, value] at same
        exact Fin.ext (by omega)
  · intro slot inum keyed inUse
    have inRange : inum.toNat < 8192 := by
      simp only [Mount.volume, inodeCount_rootDir, Bool.and_eq_true, decide_eq_true_eq] at inUse
      exact inUse.1
    have isNumber := number keyed
    rw [ino_rootDir data refc inRange, rootDir]
    simp only
    split at isNumber
    case isTrue first => rw [if_pos first, if_pos isNumber]
    case isFalse later =>
      have notRoot : inum ≠ 0 := by
        rintro rfl
        have zero := congrArg UInt32.toNat isNumber
        rw [value, UInt32.toNat_zero] at zero
        omega
      rw [if_neg later, if_neg notRoot]

theorem wellFormed_rootDir {data : Block} (counted : data.Counted)
    (distinct : ∀ i j, Block.Slot i → Block.Slot j → data.live i = true →
      data.live j = true → data.name i = data.name j → i = j)
    (inRange : ∀ j, Block.Slot j → data.live j = true → (data.dentryInum j).toNat < 8192)
    (refc : Nat) : WellFormed (rootDir data refc) := by
  have entry : ∀ {dir place name target},
      (rootDir data refc).volume.entry dir place = some (name, target) →
      dir = 0 ∧ place.1 = 0 ∧ Block.Slot place.2 ∧ data.live place.2 = true ∧
        data.name place.2 = name ∧ data.dentryInum place.2 = target := by
    intro dir place name target atPlace
    rcases Volume.entry_eq_some.mp atPlace with ⟨isDir, inDir, isSlot, isLive, sameName, sameInum⟩
    obtain rfl := (isDir_rootDir data refc).mp isDir
    rw [blockCount_rootDir, Nat.lt_one_iff] at inDir
    rw [inDir, content_rootDir] at isLive sameName sameInum
    exact ⟨rfl, inDir, isSlot, isLive, sameName, sameInum⟩
  refine ⟨geometry_thirteenBlocks, rfl, coherent_rootDir data refc,
    ⟨(isDir_rootDir data refc).mpr rfl, ?_, ?_, ?_, ?_⟩⟩
  · intro dir isDir
    obtain rfl := (isDir_rootDir data refc).mp isDir
    exact readable_rootDir data refc
  · intro dir k isDir inDir
    obtain rfl := (isDir_rootDir data refc).mp isDir
    rw [blockCount_rootDir, Nat.lt_one_iff] at inDir
    rw [inDir, content_rootDir]
    exact counted
  · intro dir place other name first second atPlace atOther
    rcases entry atPlace with ⟨_, block, isSlot, isLive, sameName, _⟩
    rcases entry atOther with ⟨_, otherBlock, otherSlot, otherLive, otherName, _⟩
    exact Prod.ext (block.trans otherBlock.symm)
      (distinct _ _ isSlot otherSlot isLive otherLive (sameName.trans otherName.symm))
  · intro dir place name target atPlace
    rcases entry atPlace with ⟨_, _, isSlot, isLive, _, sameInum⟩
    refine imap_rootDir data refc ?_
    rw [← sameInum]
    exact inRange _ isSlot isLive

theorem wellFormed_oneEntry {data : Block} (only : Nat) (counted : data.Counted)
    (single : ∀ j ∈ List.range' 1 Block.dentryMax, data.live j = true → j = only)
    (inRange : (data.dentryInum only).toNat < 8192) (refc : Nat) :
    WellFormed (rootDir data refc) := by
  have isOnly : ∀ j, Block.Slot j → data.live j = true → j = only :=
    fun j isSlot => single j (Block.Slot.mem_range.mpr isSlot)
  refine wellFormed_rootDir counted ?_ ?_ refc
  · intro i j isSlot otherSlot isLive otherLive _
    rw [isOnly i isSlot isLive, isOnly j otherSlot otherLive]
  · intro j isSlot isLive
    rwa [isOnly j isSlot isLive]

end

def entryBlock : Block := setEntry ((0 : Block).setU64 0 1) 1 5 [97]

theorem wellFormed_entryBlock (refc : Nat) : WellFormed (rootDir entryBlock refc) :=
  wellFormed_oneEntry 1 (by decide +kernel) (by decide +kernel) (by decide +kernel) refc

theorem proper_a : ∀ name ∈ [[97]], Proper name := by
  intro name isName
  rw [mem_singleton.mp isName]
  exact ⟨by decide, by decide, by decide⟩

theorem through_a (refc : Nat) : ∀ front back place, [[97]] = front ++ back → back ≠ [] →
    (rootDir entryBlock refc).volume.Walks 0 front place →
    (rootDir entryBlock refc).volume.IsDir place := by
  intro front back place parts more walks
  cases front with
  | nil =>
    cases walks with
    | nil => exact (isDir_rootDir _ _).mpr rfl
  | cons name rest =>
    cases rest with
    | nil =>
      cases back with
      | nil => exact absurd rfl more
      | cons => cases parts
    | cons => cases parts

theorem dentryFind_resolves_a : Resolves (rootDir entryBlock 0) () [slash, 97] 0 [[97]] := by
  have path : (if true = true then [slash] else []) ++ joinNames false [[97]] = [slash, 97] := rfl
  have running : (rootDir entryBlock 0).tasks () = some ⟨0, fun _ => none, 0⟩ := rfl
  have home : ((rootDir entryBlock 0).icache 0).inum = 0 := rfl
  have resolves := @dentryFind_resolves _ _ _ _ _ (wellFormed_entryBlock 0) running
    ((isDir_rootDir _ _).mpr home) proper_a true false _ rfl (through_a 0)
  rwa [path] at resolves

/-- With references to all slots of the inode cache, looking `/a` up panics. -/
theorem dentryFind_exhausted : WellFormed (rootDir entryBlock 1) ∧
    (rootDir entryBlock 1).volume.Walks 0 [[97]] 5 ∧
    (dentryFind () [slash, 97] (rootDir entryBlock 1)).map (fun _ => ()) =
      .error (.panic "iget: icache exhausted") := by
  refine ⟨wellFormed_entryBlock 1, ?_, by decide +kernel⟩
  refine .cons ⟨(0, 1), Volume.entry_eq_some.mpr ?_⟩ (.nil 5)
  rw [blockCount_rootDir, content_rootDir]
  exact ⟨(isDir_rootDir _ _).mpr rfl, Nat.one_pos, ⟨by decide, by decide⟩, by decide +kernel,
    by decide +kernel, by decide +kernel⟩

end Tnix.Fs
