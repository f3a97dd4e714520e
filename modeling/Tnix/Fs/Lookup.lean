import Tnix.Foundation.SlotTable
import Tnix.Fs.BlockIndex
import Tnix.Fs.DirBlock

/-! # Looking a path up

`dentry_find` goes from inode to inode with one reference in hand. The one way to fail is an
inode cache without a free slot. -/

namespace Tnix.Fs

open Program Mount

/-! ## Names and entries -/

/-- The names that `parse_path` takes from a path, one after the other. -/
def namesFrom : Nat → List UInt8 → List (List UInt8)
  | 0, _ => []
  | fuel + 1, path =>
    if path = [] then []
    else path.takeWhile (· ≠ slash) :: namesFrom fuel (path.dropWhile (· ≠ slash)).tail

def names (path : List UInt8) : List (List UInt8) := namesFrom path.length path

theorem length_rest {path : List UInt8} (nonempty : path ≠ []) :
    (path.dropWhile (· ≠ slash)).tail.length < path.length := by
  have dropped := (List.dropWhile_sublist (l := path) (p := (· ≠ slash))).length_le
  have positive := List.length_pos_of_ne_nil nonempty
  rw [List.length_tail]
  omega

theorem namesFrom_eq (fuel : Nat) : ∀ (more : Nat) (path : List UInt8), path.length ≤ fuel →
    path.length ≤ more → namesFrom fuel path = namesFrom more path := by
  induction fuel with
  | zero =>
    intro more path short _
    rw [List.eq_nil_of_length_eq_zero (Nat.le_zero.mp short)]
    cases more <;> rfl
  | succ fuel induction =>
    intro more path short enough
    by_cases empty : path = []
    · subst empty
      cases more <;> rfl
    · have less := length_rest empty
      cases more with
      | zero => exact absurd (List.eq_nil_of_length_eq_zero (Nat.le_zero.mp enough)) empty
      | succ more =>
        rw [namesFrom, namesFrom, if_neg empty, if_neg empty,
          induction more _ (by omega) (by omega)]

theorem names_cons {path : List UInt8} (nonempty : path ≠ []) :
    names path = path.takeWhile (· ≠ slash) :: names (path.dropWhile (· ≠ slash)).tail := by
  have less := length_rest nonempty
  have positive := List.length_pos_of_ne_nil nonempty
  rw [names, namesFrom_eq path.length (path.length - 1 + 1) path (by omega) (by omega), namesFrom,
    if_neg nonempty, names, namesFrom_eq (path.length - 1) _ _ (by omega) (Nat.le_refl _)]

namespace Volume

def lookupFrom (volume : Volume) (dir : UInt32) (name : List UInt8) (first remaining : Nat) :
    Option UInt32 :=
  (List.range' first remaining).findSome? fun k =>
    (findEntry (volume.content dir k) name).map (volume.content dir k).dentryInum

theorem lookup_eq (volume : Volume) (dir : UInt32) (name : List UInt8) :
    volume.lookup dir name = volume.lookupFrom dir name 0 (volume.blockCount dir) := by
  rw [lookup, lookupFrom, List.range_eq_range']

theorem lookupFrom_succ (volume : Volume) (dir : UInt32) (name : List UInt8)
    (first remaining : Nat) :
    volume.lookupFrom dir name first (remaining + 1) =
      match findEntry (volume.content dir first) name with
      | some j => some ((volume.content dir first).dentryInum j)
      | none => volume.lookupFrom dir name (first + 1) remaining := by
  rw [lookupFrom, List.range'_succ, List.findSome?_cons]
  cases findEntry (volume.content dir first) name <;> rfl

end Volume

/-! ## References -/

def Inode.key (inode : Inode Unit) : Option UInt32 :=
  if inode.sb.isSome = true then some inode.inum else none

section
variable {Task : Type}

def Keyed (mount : Mount Task) (slot : Fin NINODE) (inum : UInt32) : Prop :=
  (mount.icache slot).sb.isSome = true ∧ (mount.icache slot).inum = inum

def Mount.refOf (mount : Mount Task) (inum : UInt32) : Nat :=
  SlotTable.refs (fun slot => (mount.icache slot).key) (fun slot => (mount.icache slot).refc) inum

def Mount.withInode (mount : Mount Task) (slot : Fin NINODE) (inode : Inode Unit) : Mount Task :=
  { mount with icache := Function.update mount.icache slot inode }

/-- An inode is cached once, and as it is on the disk. -/
structure Mount.Coherent (mount : Mount Task) : Prop where
  unique : ∀ {slot other inum}, Keyed mount slot inum → Keyed mount other inum → slot = other
  fresh : ∀ {slot inum}, Keyed mount slot inum → mount.volume.imap inum = true →
    (mount.icache slot).di = mount.volume.ino inum

/-- What `iget` of an inode in use does: a reference more in its slot, or a slot without
references is taken for it. -/
inductive Got (mount : Mount Task) (inum : UInt32) : Fin NINODE → Mount Task → Prop
  | hit {slot : Fin NINODE} (keyed : Keyed mount slot inum) :
      Got mount inum slot (mount.withInode slot
        { mount.icache slot with refc := (mount.icache slot).refc + 1 })
  | load {slot : Fin NINODE} (absent : ∀ other, ¬ Keyed mount other inum)
      (unused : (mount.icache slot).refc = 0) :
      Got mount inum slot (mount.withInode slot ⟨mount.volume.ino inum, some (), inum, 1⟩)

/-- Only data blocks are locked, and a buffer is free. -/
structure Mount.DataHeld (mount : Mount Task) : Prop where
  isData : ∀ blockno ∈ mount.held, mount.sb.blocks ≤ blockno
  few : mount.held.length < NIOBUF

end

variable {Task : Type} {mount final : Mount Task} {slot : Fin NINODE} {inum : UInt32}

theorem Inode.key_eq_some : (mount.icache slot).key = some inum ↔ Keyed mount slot inum := by
  rw [key, Keyed]
  by_cases inUse : (mount.icache slot).sb.isSome = true
  · rw [if_pos inUse, Option.some.injEq]
    exact (and_iff_right inUse).symm
  · rw [if_neg inUse]
    exact iff_of_false (Option.some_ne_none inum).symm fun both => inUse both.1

section
variable (mount slot) (inode : Inode Unit)

theorem Mount.withInode_self : (mount.withInode slot inode).icache slot = inode :=
  Function.update_self _ _ _

theorem Mount.withInode_other {other : Fin NINODE} (different : other ≠ slot) :
    (mount.withInode slot inode).icache other = mount.icache other :=
  Function.update_of_ne different _ _

theorem Mount.withInode_withInode (second : Inode Unit) :
    (mount.withInode slot inode).withInode slot second = mount.withInode slot second := by
  simp only [withInode, Function.update_idem]

theorem Mount.changed_withInode : SlotTable.Changed (fun slot => (mount.icache slot).key)
    (fun other => ((mount.withInode slot inode).icache other).key)
    (fun slot => (mount.icache slot).refc)
    (fun other => ((mount.withInode slot inode).icache other).refc) slot := by
  constructor
  · intro other different
    rw [withInode_other mount slot inode different]
  · intro other different
    rw [withInode_other mount slot inode different]

theorem keyed_withInode {other : Fin NINODE} {number : UInt32} :
    Keyed (mount.withInode slot inode) other number ↔
      if other = slot then inode.key = some number else Keyed mount other number := by
  rw [← Inode.key_eq_some]
  by_cases same : other = slot
  · subst same
    rw [if_pos rfl, withInode_self]
  · rw [if_neg same, withInode_other mount slot inode same, Inode.key_eq_some]

end

theorem Mount.Coherent.withRefc (coherent : mount.Coherent) (slot : Fin NINODE) (refc : Nat) :
    (mount.withInode slot { mount.icache slot with refc := refc }).Coherent := by
  have same : ∀ {other number}, Keyed (mount.withInode slot
      { mount.icache slot with refc := refc }) other number ↔ Keyed mount other number := by
    intro other number
    rw [keyed_withInode]
    split
    case isTrue here =>
      rw [here]
      exact Inode.key_eq_some
    case isFalse => rfl
  constructor
  · intro first second number firstKeyed secondKeyed
    exact coherent.unique (same.mp firstKeyed) (same.mp secondKeyed)
  · intro other number otherKeyed inUse
    have fresh := coherent.fresh (same.mp otherKeyed) inUse
    by_cases here : other = slot
    · subst here
      rw [withInode_self]
      exact fresh
    · rw [withInode_other _ _ _ here]
      exact fresh

namespace Got

variable (got : Got mount inum slot final)
include got

theorem keyed : Keyed final slot inum := by
  cases got with
  | hit keyed =>
    rw [keyed_withInode, if_pos rfl]
    exact Inode.key_eq_some.mpr keyed
  | load absent unused =>
    rw [keyed_withInode, if_pos rfl]
    rfl

theorem coherent (coherent : mount.Coherent) : final.Coherent := by
  cases got with
  | hit keyed => exact coherent.withRefc _ _
  | load absent unused =>
    have isNew : ∀ {number}, Inode.key ⟨mount.volume.ino inum, some (), inum, 1⟩ = some number →
        number = inum := fun same => (Option.some.inj same).symm
    constructor
    · intro first second number firstKeyed secondKeyed
      rw [keyed_withInode] at firstKeyed secondKeyed
      split at firstKeyed
      case isTrue firstHere =>
        split at secondKeyed
        case isTrue secondHere => rw [firstHere, secondHere]
        case isFalse =>
          rw [isNew firstKeyed] at secondKeyed
          exact absurd secondKeyed (absent second)
      case isFalse =>
        split at secondKeyed
        case isTrue secondHere =>
          rw [isNew secondKeyed] at firstKeyed
          exact absurd firstKeyed (absent first)
        case isFalse => exact coherent.unique firstKeyed secondKeyed
    · intro other number otherKeyed inUse
      rw [keyed_withInode] at otherKeyed
      split at otherKeyed
      case isTrue here =>
        rw [here, withInode_self, isNew otherKeyed]
        rfl
      case isFalse notHere =>
        rw [withInode_other _ _ _ notHere]
        exact coherent.fresh otherKeyed inUse

theorem refOf (other : UInt32) :
    final.refOf other = mount.refOf other + if other = inum then 1 else 0 := by
  cases got with
  | hit keyed =>
    have isKey := Inode.key_eq_some.mpr keyed
    refine SlotTable.refs_retain (mount.changed_withInode slot _) isKey ?_ ?_ other
    · rw [withInode_self]
      exact isKey
    · rw [withInode_self]
  | load absent unused =>
    refine SlotTable.refs_take (mount.changed_withInode slot _) unused ?_ ?_ other
    · rw [withInode_self]
      rfl
    · rw [withInode_self]

theorem positive : 0 < (final.icache slot).refc := by
  cases got with
  | hit keyed =>
    rw [withInode_self]
    exact Nat.succ_pos _
  | load absent unused =>
    rw [withInode_self]
    exact Nat.one_pos

theorem spare (free : ∃ other, (mount.icache other).refc = 0) :
    (final.icache slot).refc = 1 ∨ ∃ other, other ≠ slot ∧ (final.icache other).refc = 0 := by
  rcases free with ⟨other, unused⟩
  cases got with
  | hit keyed =>
    by_cases here : other = slot
    · subst here
      left
      rw [withInode_self, unused]
    · right
      refine ⟨other, here, ?_⟩
      rw [withInode_other _ _ _ here, unused]
  | load absent wasUnused =>
    left
    rw [withInode_self]

theorem frame : final = { mount with icache := final.icache } := by
  cases got with
  | hit => rfl
  | load => rfl

end Got

/-! ## `iget` and `iput` -/

section
variable (geometry : mount.sb.Geometry) (held : mount.DataHeld)
include geometry held

theorem iexist_yields (inRange : inum.toNat < mount.sb.inodeCount)
    {post : Bool → Mount Task → Prop} (holds : post (mount.volume.imap inum) mount) :
    Yields (iexist inum) mount post := by
  have position : mount.sb.imap + inum.toNat / BIT_CNT_PER_BLOCK < mount.sb.blocks := by
    have := geometry.inodes_le
    have := geometry.bmap_le
    simp only [Superblock.inodeCount, BIT_CNT_PER_BLOCK, BSIZE] at inRange ⊢
    omega
  have notHeld : mount.sb.imap + inum.toNat / BIT_CNT_PER_BLOCK ∉ mount.held :=
    fun isHeld => Nat.not_le.mpr position (held.isData _ isHeld)
  simp only [iexist, yields_bind, yields_get, yields_bread]
  refine ⟨notHeld, held.few, yields_brelse_head rfl ?_⟩
  rw [yields_pure, Block.bit_u8]
  have bit : mount.volume.imap inum =
      (mount.disk (mount.sb.imap + inum.toNat / BIT_CNT_PER_BLOCK)).getLsbD
        (inum.toNat % BIT_CNT_PER_BLOCK) := by
    simp only [Mount.volume, inRange, decide_true, Bool.true_and]
  rw [← bit]
  exact holds

theorem iread_yields (inRange : (mount.icache slot).inum.toNat < mount.sb.inodeCount)
    {post : Unit → Mount Task → Prop}
    (holds : post () (mount.withInode slot { mount.icache slot with
      di := mount.volume.ino (mount.icache slot).inum })) :
    Yields (iread slot) mount post := by
  have position : mount.sb.inodes + (mount.icache slot).inum.toNat / DINODE_CNT_PER_BLOCK <
      mount.sb.blocks := by
    have := geometry.inodes_le
    have := geometry.bmap_le
    have table := geometry.table
    simp only [DINODE_CNT_PER_BLOCK, BSIZE] at table ⊢
    omega
  have notHeld : mount.sb.inodes + (mount.icache slot).inum.toNat / DINODE_CNT_PER_BLOCK ∉
      mount.held := fun isHeld => Nat.not_le.mpr position (held.isData _ isHeld)
  simp only [iread, yields_bind, yields_get, yields_getInode, yields_bread, yields_setInode]
  refine ⟨notHeld, held.few, yields_brelse_head rfl ?_⟩
  have dinode : mount.volume.ino (mount.icache slot).inum =
      (mount.disk (mount.sb.inodes + (mount.icache slot).inum.toNat / DINODE_CNT_PER_BLOCK)).dinode
        ((mount.icache slot).inum.toNat % DINODE_CNT_PER_BLOCK) := by
    simp only [Mount.volume, if_pos inRange]
  rw [dinode] at holds
  exact holds

theorem iget_yieldsOr (inUse : mount.volume.imap inum = true) :
    YieldsOr (iget inum) mount (fun fault => fault = .panic "iget: icache exhausted" ∧
        ∀ slot, 0 < (mount.icache slot).refc)
      (fun found final => ∃ slot, found = some slot ∧ Got mount inum slot final) := by
  have inRange : inum.toNat < mount.sb.inodeCount := by
    simp only [Mount.volume, Bool.and_eq_true, decide_eq_true_eq] at inUse
    exact inUse.1
  rw [iget]
  refine yieldsOr_bind_of_ok rfl ?_
  cases hit : findInode mount fun inode => inode.sb.isSome && inode.inum == inum with
  | some slot =>
    have keyed : Keyed mount slot inum := by
      have test := List.find?_some hit
      simpa [Keyed] using test
    exact yieldsOr_of_ok rfl ⟨slot, rfl, .hit keyed⟩
  | none =>
    have absent : ∀ other, ¬ Keyed mount other inum := by
      intro other keyed
      have test := List.find?_eq_none.mp hit other (List.mem_finRange other)
      simp [keyed.1, keyed.2] at test
    have isCached : iexist inum mount = .ok (true, mount) := by
      rcases @iexist_yields _ mount _ geometry held inRange (fun result final =>
        result = mount.volume.imap inum ∧ final = mount) ⟨rfl, rfl⟩ with ⟨_, _, ran, rfl, rfl⟩
      rw [ran, inUse]
    refine yieldsOr_bind_of_ok isCached ?_
    rw [if_pos rfl]
    refine yieldsOr_bind_of_ok rfl ?_
    cases free : findInode mount fun inode => inode.refc == 0 with
    | none =>
      refine yieldsOr_of_error rfl ⟨rfl, fun other => ?_⟩
      have test := List.find?_eq_none.mp free other (List.mem_finRange other)
      exact Nat.pos_of_ne_zero (by simpa using test)
    | some slot =>
      have unused : (mount.icache slot).refc = 0 := by
        simpa using List.find?_some free
      refine yieldsOr_bind_of_ok rfl (yieldsOr_bind_of_ok rfl ?_)
      have taken := mount.withInode_self slot
        { mount.icache slot with refc := 1, sb := some (), inum := inum }
      rcases @iread_yields _ (mount.withInode slot
          { mount.icache slot with refc := 1, sb := some (), inum := inum }) slot geometry
          ⟨held.isData, held.few⟩ (by rw [taken]; exact inRange) (fun _ final =>
            final = mount.withInode slot ⟨mount.volume.ino inum, some (), inum, 1⟩)
          (by rw [taken, withInode_withInode]; rfl) with ⟨_, _, ran, rfl⟩
      exact yieldsOr_bind_of_ok ran (yieldsOr_of_ok rfl ⟨slot, rfl, .load absent unused⟩)

end

theorem iput_eq : iput slot mount = .ok ((), mount.withInode slot { mount.icache slot with
      refc := (mount.icache slot).refc - 1 }) := rfl

/-! ## The walk -/

def Framed (origin mount : Mount Task) : Prop :=
  ∃ icache held, mount = { origin with icache := icache, held := held }

namespace Framed

variable {origin : Mount Task} (framed : Framed origin mount)
include framed

theorem volume : mount.volume = origin.volume := by
  rcases framed with ⟨icache, held, rfl⟩
  rfl

theorem sb : mount.sb = origin.sb := by
  rcases framed with ⟨icache, held, rfl⟩
  rfl

end Framed

structure At (origin mount : Mount Task) (inum : UInt32) (slot : Fin NINODE) : Prop where
  frame : Framed origin mount
  coherent : mount.Coherent
  inUse : origin.volume.imap inum = true
  keyed : Keyed mount slot inum
  positive : 0 < (mount.icache slot).refc
  refs : ∀ other, mount.refOf other = origin.refOf other + if other = inum then 1 else 0
  spare : (∃ other, (origin.icache other).refc = 0) →
    (mount.icache slot).refc = 1 ∨ ∃ other, other ≠ slot ∧ (mount.icache other).refc = 0

structure Left (origin mount : Mount Task) : Prop where
  frame : Framed origin mount
  coherent : mount.Coherent
  refs : ∀ other, mount.refOf other = origin.refOf other
  spare : (∃ other, (origin.icache other).refc = 0) → ∃ other, (mount.icache other).refc = 0

variable {origin : Mount Task}

theorem Left.refl (coherent : mount.Coherent) : Left mount mount :=
  ⟨⟨mount.icache, mount.held, rfl⟩, coherent, fun _ => rfl, id⟩

theorem At.held (atInode : At origin mount inum slot) (held : List Nat) :
    At origin { mount with held := held } inum slot := by
  refine ⟨?_, ⟨atInode.coherent.unique, atInode.coherent.fresh⟩, atInode.inUse, atInode.keyed,
    atInode.positive, atInode.refs, atInode.spare⟩
  rcases atInode.frame with ⟨icache, _, same⟩
  exact ⟨icache, held, by rw [same]⟩

theorem At.iput (atInode : At origin mount inum slot) :
    Left origin (mount.withInode slot { mount.icache slot with
      refc := (mount.icache slot).refc - 1 }) := by
  have isKey := Inode.key_eq_some.mpr atInode.keyed
  refine ⟨?_, atInode.coherent.withRefc slot _, fun other => ?_, fun free => ?_⟩
  · rcases atInode.frame with ⟨icache, held, same⟩
    exact ⟨_, held, by rw [same]; rfl⟩
  · have released := SlotTable.refs_release (mount.changed_withInode slot
      { mount.icache slot with refc := (mount.icache slot).refc - 1 }) isKey
      (by rw [withInode_self]; exact isKey)
      (by rw [withInode_self]; exact Nat.sub_add_cancel atInode.positive) other
    have before := atInode.refs other
    rw [Mount.refOf, released] at before
    exact Nat.add_right_cancel before
  · rcases atInode.spare free with isOne | ⟨other, different, unused⟩
    · refine ⟨slot, ?_⟩
      rw [withInode_self, isOne]
    · refine ⟨other, ?_⟩
      rw [withInode_other _ _ _ different, unused]

/-- `iget` has no slot for one more inode. -/
def Exhausted (origin : Mount Task) (fault : Fault) : Prop :=
  fault = .panic "iget: icache exhausted" ∧ ∀ slot, 0 < (origin.icache slot).refc

theorem Left.iget (left : Left origin mount) (geometry : origin.sb.Geometry)
    (held : mount.DataHeld) (inUse : origin.volume.imap inum = true) :
    YieldsOr (iget inum) mount (Exhausted origin) fun found final =>
      ∃ slot, found = some slot ∧ At origin final inum slot ∧ final.held = mount.held := by
  have sameSb : mount.sb = origin.sb := left.frame.sb
  have sameVolume : mount.volume = origin.volume := left.frame.volume
  refine (iget_yieldsOr (by rwa [sameSb]) held (by rwa [sameVolume])).mono ?_ ?_
  · rintro found final ⟨slot, rfl, got⟩
    refine ⟨slot, rfl, ⟨?_, got.coherent left.coherent, inUse, got.keyed, got.positive, ?_, ?_⟩, ?_⟩
    · rcases left.frame with ⟨icache, heldNow, same⟩
      refine ⟨final.icache, heldNow, ?_⟩
      rw [got.frame, same]
    · intro other
      rw [got.refOf, left.refs]
    · exact fun free => got.spare (left.spare free)
    · rw [got.frame]
  · rintro fault ⟨rfl, referenced⟩
    refine ⟨rfl, fun slot => Nat.pos_of_ne_zero fun unused => ?_⟩
    rcases left.spare ⟨slot, unused⟩ with ⟨other, nowUnused⟩
    have positive := referenced other
    omega

structure Volume.Readable (volume : Volume) (sb : Superblock) (inum : UInt32) : Prop where
  count : volume.blockCount inum ≤ maxBlocks
  data : ∀ k < volume.blockCount inum, sb.IsData (volume.block inum k)
  index : ∀ k < volume.blockCount inum, NDIRECT ≤ k →
    sb.IsData (volume.indexAt inum ((k - NDIRECT) / IDX_CNT_PER_INDIRECT_BLCOK))

section
variable (geometry : origin.sb.Geometry) {name : List UInt8}

theorem At.dataBlockGet_eq (atInode : At origin mount inum slot) (idle : mount.held = [])
    (readable : origin.volume.Readable origin.sb inum) {k : Nat}
    (inDir : k < origin.volume.blockCount inum) :
    dataBlockGet slot k mount =
      .ok (⟨(origin.volume.block inum k).toNat, origin.volume.content inum k⟩,
        { mount with held := [(origin.volume.block inum k).toNat] }) := by
  have sameSb : mount.sb = origin.sb := atInode.frame.sb
  have sameVolume : mount.volume = origin.volume := atInode.frame.volume
  have fresh := atInode.coherent.fresh atInode.keyed (by rw [sameVolume]; exact atInode.inUse)
  have onDisk : ∀ blockno, origin.sb.IsData blockno →
      mount.disk blockno.toNat = origin.volume.data blockno := by
    intro blockno isData
    rw [← sameVolume]
    simp only [Mount.volume, sameSb, if_pos isData]
  have number : mount.blockAt slot k = origin.volume.block inum k := by
    rw [Mount.blockAt, Dinode.blockAt, fresh, sameVolume, Volume.block]
    split
    case isTrue => rfl
    case isFalse indirect =>
      have index := readable.index k inDir (Nat.not_lt.mp indirect)
      rw [Volume.indexAt] at index ⊢
      rw [onDisk _ index]
  rcases @dataBlockGet_yields _ mount slot idle k (Nat.lt_of_lt_of_le inDir readable.count) with
    ⟨_, _, ran, rfl, rfl⟩
  rw [ran, number, onDisk _ (readable.data k inDir)]
  rfl

include geometry

theorem At.findInFrom (readable : origin.volume.Readable origin.sb inum) (remaining : Nat) :
    ∀ (i : Nat) (mount : Mount Task), At origin mount inum slot → mount.held = [] →
      i + remaining = origin.volume.blockCount inum →
      (∀ target ∈ origin.volume.lookupFrom inum name i remaining,
        origin.volume.imap target = true) →
      YieldsOr (findInFrom slot name remaining i) mount (Exhausted origin) fun result final =>
        final.held = [] ∧
        match origin.volume.lookupFrom inum name i remaining with
        | some target => ∃ next, result = some (some next) ∧ At origin final target next
        | none => result = none ∧ final = mount := by
  induction remaining with
  | zero =>
    intro i mount _ idle _ _
    exact yieldsOr_of_ok rfl ⟨idle, rfl, rfl⟩
  | succ remaining induction =>
    intro i mount atInode idle total inUse
    have inDir : i < origin.volume.blockCount inum := by omega
    rw [Volume.lookupFrom_succ] at inUse ⊢
    rw [Fs.findInFrom]
    refine yieldsOr_bind_of_ok (atInode.dataBlockGet_eq idle readable inDir) ?_
    simp only
    cases entry : findEntry (origin.volume.content inum i) name with
    | some j =>
      rw [entry] at inUse
      simp only
      refine yieldsOr_bind_of_ok iput_eq ?_
      have left := (atInode.held [(origin.volume.block inum i).toNat]).iput
      refine YieldsOr.bind (left.iget geometry ⟨?_, show 1 < NIOBUF by decide⟩ (inUse _ rfl)) ?_
      · intro blockno isHeld
        rw [List.mem_singleton.mp isHeld]
        exact atInode.frame.sb ▸ (readable.data i inDir).1
      · rintro _ got ⟨next, rfl, arrived, stillHeld⟩
        refine yieldsOr_bind_of_ok (brelse_head (by exact stillHeld)) ?_
        exact yieldsOr_of_ok rfl ⟨rfl, next, rfl, arrived.held []⟩
    | none =>
      rw [entry] at inUse
      simp only
      refine yieldsOr_bind_of_ok (brelse_head rfl) ?_
      have closed : ({ mount with held := [] } : Mount Task) = mount := by rw [← idle]
      refine (induction (i + 1) { mount with held := [] } (atInode.held []) rfl (by omega)
        inUse).mono ?_ fun _ => id
      intro result final outcome
      rwa [closed] at outcome

/-- A list of names can be followed: what is scanned can be, the names fit into the buffer,
and what is found is in use. -/
def Volume.Passable (volume : Volume) (sb : Superblock) : UInt32 → List (List UInt8) → Prop
  | _, [] => True
  | inum, name :: rest => volume.Readable sb inum ∧ name.length < DLENGTH ∧
      ∀ target ∈ volume.lookup inum name,
        volume.imap target = true ∧ volume.Passable sb target rest

omit geometry in
theorem parsePath_eq {path : List UInt8} (nonempty : path ≠ [])
    (short : (path.takeWhile (· ≠ slash)).length < DLENGTH) (mount : Mount Task) :
    parsePath path mount =
      .ok (some (path.takeWhile (· ≠ slash), (path.dropWhile (· ≠ slash)).tail), mount) := by
  rw [parsePath, if_neg nonempty]
  cases path.dropWhile (· ≠ slash) with
  | nil =>
    dsimp only
    rw [if_neg (by omega)]
    rfl
  | cons byte rest =>
    dsimp only
    rw [if_neg (by omega)]
    rfl

def Ended (origin final : Mount Task) (found : Option (Fin NINODE)) : Option UInt32 → Prop
  | some target => ∃ slot, found = some slot ∧ At origin final target slot
  | none => found = none ∧ Left origin final

theorem At.walkFrom (fuel : Nat) : ∀ (slot : Fin NINODE) (inum : UInt32) (path : List UInt8)
    (mount : Mount Task), path.length ≤ fuel → At origin mount inum slot → mount.held = [] →
      origin.volume.Passable origin.sb inum (names path) →
      YieldsOr (walkFrom fuel (some slot) path) mount (Exhausted origin) fun found final =>
        final.held = [] ∧ Ended origin final found (origin.volume.walk inum (names path)) := by
  induction fuel with
  | zero =>
    intro slot inum path mount short atInode idle _
    obtain rfl := List.eq_nil_of_length_eq_zero (Nat.le_zero.mp short)
    exact yieldsOr_of_ok rfl ⟨idle, slot, rfl, atInode⟩
  | succ fuel induction =>
    intro slot inum path mount short atInode idle passable
    rw [Fs.walkFrom]
    by_cases empty : path = []
    · subst empty
      exact yieldsOr_bind_of_ok rfl (yieldsOr_of_ok rfl ⟨idle, slot, rfl, atInode⟩)
    · rw [names_cons empty] at passable ⊢
      rcases passable with ⟨readable, fits, found⟩
      have less := length_rest empty
      refine yieldsOr_bind_of_ok (parsePath_eq empty fits mount) ?_
      simp only
      refine yieldsOr_bind_of_ok rfl ?_
      have fresh := atInode.coherent.fresh atInode.keyed
        (by rw [atInode.frame.volume]; exact atInode.inUse)
      have count : (iblockCnt (mount.icache slot).di).toNat = origin.volume.blockCount inum := by
        rw [fresh, atInode.frame.volume, Volume.blockCount]
      rw [count, Volume.walk, Volume.lookup_eq]
      rw [Volume.lookup_eq] at found
      refine YieldsOr.bind (At.findInFrom geometry readable _ 0 mount atInode idle (Nat.zero_add _)
        fun target leads => (found target leads).1) ?_
      intro result final outcome
      cases leads : origin.volume.lookupFrom inum (path.takeWhile (· ≠ slash)) 0
          (origin.volume.blockCount inum) with
      | some target =>
        rw [leads] at outcome
        rcases outcome with ⟨closed, next, rfl, arrived⟩
        exact induction next target _ final (by omega) arrived closed (found target leads).2
      | none =>
        rw [leads] at outcome
        rcases outcome with ⟨closed, rfl, rfl⟩
        exact yieldsOr_bind_of_ok iput_eq (yieldsOr_of_ok rfl ⟨closed, rfl, atInode.iput⟩)

omit geometry in
theorem getFsStruct_eq {task : Task} {fsStruct : FsStruct}
    (running : mount.tasks task = some fsStruct) :
    getFsStruct task mount = .ok (fsStruct, mount) := by
  have yields : Yields (getFsStruct task) mount fun result final =>
      result = fsStruct ∧ final = mount := by
    rw [getFsStruct, yields_bind, yields_get, running, yields_pure]
    exact ⟨rfl, rfl⟩
  rcases yields with ⟨_, _, ran, rfl, rfl⟩
  exact ran

theorem dentryFind_yieldsOr (coherent : origin.Coherent) (idle : origin.held = []) {task : Task}
    {fsStruct : FsStruct} (running : origin.tasks task = some fsStruct) {path : List UInt8}
    {start : UInt32} (rest : List UInt8)
    (starts : (path = slash :: rest ∧ start = UInt32.ofNat ROOTINUM) ∨
      (path.head? ≠ some slash ∧ rest = path ∧ start = (origin.icache fsStruct.cwd).inum))
    (inUse : origin.volume.imap start = true)
    (passable : origin.volume.Passable origin.sb start (names rest)) :
    YieldsOr (dentryFind task path) origin (Exhausted origin) fun found final =>
      final.held = [] ∧ Ended origin final found (origin.volume.walk start (names rest)) := by
  have gets := (Left.refl coherent).iget geometry
    ⟨by rw [idle]; exact fun _ isHeld => absurd isHeld List.not_mem_nil, by rw [idle]; decide⟩ inUse
  have walks : ∀ fuel, rest.length ≤ fuel → ∀ found final,
      (∃ slot, found = some slot ∧ At origin final start slot ∧ final.held = origin.held) →
      YieldsOr (walkFrom fuel found rest) final (Exhausted origin) fun found final =>
        final.held = [] ∧ Ended origin final found (origin.volume.walk start (names rest)) := by
    rintro fuel enough _ final ⟨slot, rfl, atInode, sameHeld⟩
    exact At.walkFrom geometry fuel slot start rest final enough atInode (sameHeld.trans idle)
      passable
  rw [dentryFind]
  rcases starts with ⟨rfl, rfl⟩ | ⟨relative, rfl, rfl⟩
  · rw [if_pos List.head?_cons]
    exact YieldsOr.bind gets (walks _ (Nat.le_succ _))
  · rw [if_neg relative]
    refine yieldsOr_bind_of_ok (getFsStruct_eq running) (yieldsOr_bind_of_ok rfl ?_)
    exact YieldsOr.bind gets (walks _ (Nat.le_refl _))

end
end Tnix.Fs
