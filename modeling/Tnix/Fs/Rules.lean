import Tnix.Fs.Dir
import Tnix.Fs.File

/-! # Rules for the file system's functions

What the accesses to buffers and to the inode cache do, and what no function that works
on the disk and on dinodes changes. -/

namespace Tnix.Fs

open Program
variable {Task : Type} {mount : Mount Task} {slot : Fin NINODE}

/-! ## `bio.c` -/

variable {blockno : Nat}

theorem bread_eq (free : blockno ∉ mount.held ∧ mount.held.length < NIOBUF) :
    bread blockno mount =
      .ok (⟨blockno, mount.disk blockno⟩, { mount with held := blockno :: mount.held }) := by
  rw [bread, if_neg free.1, if_neg (Nat.not_le.mpr free.2)]

theorem bread_stops (taken : ¬ (blockno ∉ mount.held ∧ mount.held.length < NIOBUF)) :
    ∃ fault, bread blockno mount = .error fault := by
  rw [bread]
  split
  case isTrue => exact ⟨_, rfl⟩
  case isFalse notHeld => exact ⟨_, if_pos (Nat.not_lt.mp fun few => taken ⟨notHeld, few⟩)⟩

theorem ensures_bread {post : IoBuf → Mount Task → Prop} :
    Ensures (bread blockno) mount post ↔ (blockno ∉ mount.held → mount.held.length < NIOBUF →
        post ⟨blockno, mount.disk blockno⟩ { mount with held := blockno :: mount.held }) := by
  rw [ensures_iff_of_cond bread_eq bread_stops, and_imp]

variable {post : Unit → Mount Task → Prop}

theorem ensures_bwrite {b : IoBuf} :
    Ensures (bwrite b) mount post ↔ (b.blockno ∈ mount.held →
        post () { mount with disk := Function.update mount.disk b.blockno b.data }) :=
  ensures_iff_of_cond (fun isHeld => if_pos isHeld) fun notHeld => ⟨_, if_neg notHeld⟩

theorem ensures_brelse {b : IoBuf} :
    Ensures (brelse b) mount post ↔ (b.blockno ∈ mount.held →
        post () { mount with held := mount.held.erase b.blockno }) :=
  ensures_iff_of_cond (fun isHeld => if_pos isHeld) fun notHeld => ⟨_, if_neg notHeld⟩

theorem ensures_readNthImap {n : Nat} {post : IoBuf → Mount Task → Prop} :
    Ensures (readNthImap n) mount post ↔
      (n < mount.sb.inodes - mount.sb.imap → Ensures (bread (n + mount.sb.imap)) mount post) := by
  simp only [readNthImap, ensures_bind, ensures_get]
  split
  case isTrue outside => simp [ensures_throw, Nat.not_lt.mpr outside]
  case isFalse inside => simp [Nat.not_le.mp inside]

theorem ensures_readNthBmap {n : Nat} {post : IoBuf → Mount Task → Prop} :
    Ensures (readNthBmap n) mount post ↔
      (n < mount.sb.blocks - mount.sb.bmap → Ensures (bread (n + mount.sb.bmap)) mount post) := by
  simp only [readNthBmap, ensures_bind, ensures_get]
  split
  case isTrue outside => simp [ensures_throw, Nat.not_lt.mpr outside]
  case isFalse inside => simp [Nat.not_le.mp inside]

/-! ## Descriptor tables -/

theorem ensures_getFsStruct {task : Task} {post : FsStruct → Mount Task → Prop} :
    Ensures (getFsStruct task) mount post ↔
      ∀ fsStruct, mount.tasks task = some fsStruct → post fsStruct mount := by
  simp only [getFsStruct, ensures_bind, ensures_get]
  cases mount.tasks task with
  | none => simp [ensures_throw]
  | some fsStruct => simp [ensures_pure]

theorem ensures_setFsStruct [DecidableEq Task] {task : Task} {fsStruct : Option FsStruct} :
    Ensures (setFsStruct task fsStruct) mount post ↔
      post () { mount with tasks := Function.update mount.tasks task fsStruct } := by
  rw [setFsStruct, ensures_modify]

/-! ## The inode cache -/

theorem ensures_getInode {post : Inode Unit → Mount Task → Prop} :
    Ensures (getInode slot) mount post ↔ post (mount.icache slot) mount := by
  simp only [getInode, ensures_bind, ensures_get, ensures_pure]

theorem ensures_setInode {inode : Inode Unit} :
    Ensures (setInode slot inode) mount post ↔
      post () { mount with icache := Function.update mount.icache slot inode } := by
  rw [setInode, ensures_modify]

theorem ensures_setDi {di : Dinode} :
    Ensures (setDi slot di) mount post ↔ post () { mount with
        icache := Function.update mount.icache slot { mount.icache slot with di := di } } := by
  simp only [setDi, ensures_bind, ensures_getInode, ensures_setInode]

/-! ## What the functions on the disk leave alone -/

section
variable {View : Type} {view : Mount Task → View}

theorem keeps_getInode (slot : Fin NINODE) : Keeps view (getInode slot) :=
  .bind .get fun _ => .pure

theorem keeps_iblockAt (slot : Fin NINODE) (i : Nat) : Keeps view (iblockAt slot i) := by
  refine .bind (keeps_getInode slot) fun _ => ?_
  split
  · exact .pure
  · exact .throw

theorem keeps_parsePath (path : List UInt8) : Keeps view (parsePath path) := by
  refine .ite .pure ?_
  split
  · exact .ite .throw .pure
  · exact .ite .throw .pure

theorem keeps_pathSplit (path : List UInt8) (limit : Nat) : Keeps view (pathSplit path limit) :=
  .ite .throw .pure

end

/-- A view of the state that does not see the disk, the locks on buffers and the dinodes
in the inode cache. -/
structure Blind {View : Type} (view : Mount Task → View) : Prop where
  disk : ∀ mount disk, view { mount with disk := disk } = view mount
  held : ∀ mount held, view { mount with held := held } = view mount
  di : ∀ mount slot di, view { mount with
    icache := Function.update mount.icache slot { mount.icache slot with di := di } } = view mount

namespace Blind

variable {View : Type} {view : Mount Task → View} (blind : Blind view)
include blind

theorem bread (blockno : Nat) : Keeps view (Fs.bread blockno) :=
  fun mount => ensures_bread.mpr fun _ _ => blind.held mount _

theorem bwrite (b : IoBuf) : Keeps view (Fs.bwrite b) :=
  fun mount => ensures_bwrite.mpr fun _ => blind.disk mount _

theorem bzero (b : IoBuf) : Keeps view (Fs.bzero b) := blind.bwrite _

theorem brelse (b : IoBuf) : Keeps view (Fs.brelse b) :=
  fun mount => ensures_brelse.mpr fun _ => blind.held mount _

theorem readNthImap (n : Nat) : Keeps view (Fs.readNthImap n) :=
  .bind .get fun _ => .ite .throw (blind.bread _)

theorem readNthBmap (n : Nat) : Keeps view (Fs.readNthBmap n) :=
  .bind .get fun _ => .ite .throw (blind.bread _)

theorem mapAllocFrom {readNth : Nat → FsM Task IoBuf} (reads : ∀ n, Keeps view (readNth n))
    (exhausted : String) (remaining i : Nat) :
    Keeps view (Fs.mapAllocFrom readNth exhausted remaining i) := by
  induction remaining generalizing i with
  | zero => exact .throw
  | succ remaining induction =>
    refine .bind (reads i) fun b => ?_
    split
    · exact .bind (blind.brelse b) fun _ => induction (i + 1)
    · split
      · exact .bind (blind.bwrite _) fun _ => .bind (blind.brelse _) fun _ => .pure
      · exact induction (i + 1)

theorem balloc : Keeps view Fs.balloc :=
  .bind .get fun _ => .bind (blind.mapAllocFrom blind.readNthBmap _ _ _) fun _ => .pure

theorem bfree (blockno : UInt32) : Keeps view (Fs.bfree blockno) :=
  .bind .get fun _ => .bind (blind.readNthBmap _) fun _ =>
    .ite .throw (.bind (blind.bwrite _) fun _ => blind.brelse _)

/-! ### Inodes -/

variable (slot : Fin NINODE)

theorem setDi (di : Dinode) : Keeps view (Fs.setDi slot di) :=
  fun mount => ensures_setDi.mpr (blind.di mount slot di)

theorem iexist (inum : UInt32) : Keeps view (Fs.iexist inum) :=
  .bind .get fun _ => .bind (blind.bread _) fun _ => .bind (blind.brelse _) fun _ => .pure

theorem iread : Keeps view (Fs.iread slot) := by
  intro mount
  simp only [Fs.iread, ensures_bind, ensures_get, ensures_getInode, ensures_setInode, ensures_bread]
  intro _ _
  refine Ensures.mono (blind.brelse _ _) ?_
  intro _ final same
  let locked := (mount.sb.inodes + (mount.icache slot).inum.toNat / DINODE_CNT_PER_BLOCK) ::
    mount.held
  have read := blind.di { mount with held := locked } slot
  exact same.trans ((read _).trans (blind.held mount locked))

theorem iupdate : Keeps view (Fs.iupdate slot) :=
  .bind .get fun _ => .bind (keeps_getInode slot) fun _ => .bind (blind.bread _) fun _ =>
    .bind (blind.bwrite _) fun _ => blind.brelse _

theorem setIblock (i : Nat) (blockno : UInt32) : Keeps view (Fs.setIblock slot i blockno) := by
  refine .bind (keeps_getInode slot) fun _ => ?_
  split
  · exact blind.setDi _ _
  · exact .throw

theorem ialloc : Keeps view Fs.ialloc :=
  .bind .get fun _ => .bind (blind.mapAllocFrom blind.readNthImap _ _ _) fun _ => .pure

theorem clearBlock (blockno : UInt32) : Keeps view (Fs.clearBlock blockno) :=
  .bind (blind.bread _) fun _ => .bind (blind.bzero _) fun _ =>
    .bind (blind.brelse _) fun _ => blind.bfree _

theorem itruncIndexFrom (index : Block) (remaining j : Nat) :
    Keeps view (Fs.itruncIndexFrom index remaining j) := by
  induction remaining generalizing j with
  | zero => exact .pure
  | succ remaining induction =>
    exact .ite .pure (.bind (blind.clearBlock _) fun _ => induction (j + 1))

theorem itruncFrom (remaining i : Nat) : Keeps view (Fs.itruncFrom slot remaining i) := by
  induction remaining generalizing i with
  | zero => exact .pure
  | succ remaining induction =>
    refine .bind (keeps_iblockAt slot i) fun _ => .ite .pure ?_
    refine .bind (blind.bread _) fun b => ?_
    dsimp only
    have freed (blockno : UInt32) : Keeps view (do
        Fs.bzero b
        Fs.brelse b
        Fs.bfree blockno
        Fs.setIblock slot i 0
        Fs.itruncFrom slot remaining (i + 1)) :=
      .bind (blind.bzero _) fun _ => .bind (blind.brelse _) fun _ =>
        .bind (blind.bfree _) fun _ => .bind (blind.setIblock _ _ _) fun _ => induction (i + 1)
    exact .ite (.bind (blind.itruncIndexFrom _ _ _) fun _ => freed _) (freed _)

theorem itrunc : Keeps view (Fs.itrunc slot) :=
  .bind (keeps_getInode slot) fun _ => .bind (blind.setDi _ _) fun _ => blind.itruncFrom _ _ _

theorem ifree : Keeps view (Fs.ifree slot) :=
  .bind (blind.itrunc slot) fun _ => .bind (keeps_getInode slot) fun _ =>
    .bind (blind.setDi _ _) fun _ => .bind (blind.iupdate slot) fun _ =>
    .bind (keeps_getInode slot) fun _ => .bind (blind.readNthImap _) fun _ =>
    .bind (blind.bwrite _) fun _ => blind.brelse _

theorem dataBlockGet (i : Nat) : Keeps view (Fs.dataBlockGet slot i) :=
  .ite (.bind (keeps_iblockAt slot _) fun _ => blind.bread _)
    (.bind (keeps_iblockAt slot _) fun _ => .bind (blind.bread _) fun _ =>
      .bind (blind.brelse _) fun _ => blind.bread _)

theorem dataBlockAlloc : Keeps view (Fs.dataBlockAlloc slot) := by
  refine .bind (keeps_getInode slot) fun _ => .ite .throw ?_
  refine .bind blind.balloc fun _ => ?_
  dsimp only
  refine .ite (.bind (blind.setIblock _ _ _) fun _ => blind.bread _) (.ite ?_ ?_)
  · exact .bind blind.balloc fun _ => .bind (blind.setIblock _ _ _) fun _ =>
      .bind (blind.bread _) fun _ => .bind (blind.bwrite _) fun _ =>
      .bind (blind.brelse _) fun _ => blind.bread _
  · exact .bind (keeps_iblockAt _ _) fun _ => .bind (blind.bread _) fun _ =>
      .bind (blind.bwrite _) fun _ => .bind (blind.brelse _) fun _ => blind.bread _

theorem shiftIblockFrom (remaining j : Nat) : Keeps view (Fs.shiftIblockFrom slot remaining j) := by
  induction remaining generalizing j with
  | zero => exact .pure
  | succ remaining induction =>
    exact .bind (keeps_iblockAt _ _) fun _ => .bind (blind.setIblock _ _ _) fun _ =>
      induction (j + 1)

theorem shiftIndexFrom (remaining j k : Nat) :
    Keeps view (Fs.shiftIndexFrom slot remaining j k) := by
  induction remaining generalizing j k with
  | zero => exact .pure
  | succ remaining induction =>
    refine .bind (keeps_iblockAt _ _) fun _ => .ite .pure ?_
    refine .bind (blind.bread _) fun b => ?_
    dsimp only
    have written (data : Block) : Keeps view (do
        Fs.bwrite { b with data := data }
        Fs.bzero b
        Fs.brelse b
        Fs.shiftIndexFrom slot remaining (j + 1) 0) :=
      .bind (blind.bwrite _) fun _ => .bind (blind.bzero _) fun _ =>
        .bind (blind.brelse _) fun _ => induction _ _
    refine .ite ?_ (written _)
    refine .bind (keeps_iblockAt _ _) fun _ => .ite ?_ (written _)
    exact .bind (blind.bread _) fun _ => .bind (blind.brelse _) fun _ => written _

theorem idxRemove (i : Nat) : Keeps view (Fs.idxRemove slot i) := by
  refine .bind (keeps_getInode slot) fun _ => .ite ?_ (.ite ?_ (blind.shiftIndexFrom _ _ _ _))
  · exact .bind (keeps_iblockAt _ _) fun _ => .bind (blind.bread _) fun _ =>
      .bind (blind.bzero _) fun _ => .bind (blind.brelse _) fun _ =>
      blind.shiftIblockFrom _ _ _
  · exact .bind (keeps_iblockAt _ _) fun _ => .bind (blind.bread _) fun _ =>
      .bind (blind.bzero _) fun _ => .bind (blind.brelse _) fun _ =>
      .bind (blind.shiftIblockFrom _ _ _) fun _ => .bind (keeps_iblockAt _ _) fun _ =>
      .bind (blind.bread _) fun _ => .bind (blind.setIblock _ _ _) fun _ =>
      .bind (blind.brelse _) fun _ => blind.shiftIndexFrom _ _ _ _

/-! ### Directories -/

section
variable (dir : Fin NINODE)

theorem addInFrom (inum : UInt32) (name : List UInt8) (remaining i : Nat) :
    Keeps view (Fs.addInFrom dir inum name remaining i) := by
  induction remaining generalizing i with
  | zero => exact .pure
  | succ remaining induction =>
    refine .bind (blind.dataBlockGet _ _) fun b => .ite ?_ ?_
    · exact .bind (blind.brelse _) fun _ => induction (i + 1)
    · split
      · exact .bind (blind.bwrite _) fun _ => .bind (blind.brelse _) fun _ => .pure
      · exact .bind (blind.brelse _) fun _ => induction (i + 1)

theorem dentryAdd (inum : UInt32) (name : List UInt8) : Keeps view (Fs.dentryAdd dir inum name) :=
  .bind (keeps_getInode dir) fun _ => .bind (blind.addInFrom _ _ _ _ _) fun _ => .ite .pure
    (.bind (blind.dataBlockAlloc _) fun _ => .bind (blind.bwrite _) fun _ =>
      .bind (blind.brelse _) fun _ => .bind (keeps_getInode _) fun _ =>
      .bind (blind.setDi _ _) fun _ => blind.iupdate _)

theorem delInFrom (name : List UInt8) (remaining i : Nat) :
    Keeps view (Fs.delInFrom dir name remaining i) := by
  induction remaining generalizing i with
  | zero => exact .pure
  | succ remaining induction =>
    refine .bind (blind.dataBlockGet _ _) fun b => ?_
    split
    · dsimp only
      refine .ite ?_ (.bind (blind.bwrite _) fun _ => blind.brelse _)
      exact .bind (blind.idxRemove _ _) fun _ => .bind (keeps_getInode _) fun _ =>
        .bind (blind.setDi _ _) fun _ => .bind (blind.iupdate _) fun _ =>
        .bind (blind.bfree _) fun _ => blind.brelse _
    · exact .bind (blind.brelse _) fun _ => induction (i + 1)

theorem dentryDel (name : List UInt8) : Keeps view (Fs.dentryDel dir name) :=
  .bind (keeps_getInode dir) fun _ => blind.delInFrom _ _ _ _

end

/-! ### Files -/

theorem blocknoOfData (off : Nat) : Keeps view (Fs.blocknoOfData slot off) :=
  .ite (keeps_iblockAt _ _) (.bind (keeps_iblockAt _ _) fun _ => .bind (blind.bread _) fun _ =>
    .bind (blind.brelse _) fun _ => .ite .pure .throw)

theorem freadFrom (fuel pcur pend : Nat) : Keeps view (Fs.freadFrom slot fuel pcur pend) := by
  induction fuel generalizing pcur pend with
  | zero => exact .pure
  | succ fuel induction =>
    exact .ite .pure (.bind (blind.blocknoOfData _ _) fun _ => .bind (blind.bread _) fun _ =>
      .bind (blind.brelse _) fun _ => .bind (induction _ _) fun _ => .pure)

theorem fwriteGrow (fuel free bytes : Nat) : Keeps view (Fs.fwriteGrow slot fuel free bytes) := by
  induction fuel generalizing free with
  | zero => exact .pure
  | succ fuel induction =>
    exact .ite (.bind (blind.dataBlockAlloc _) fun _ => .bind (blind.brelse _) fun _ =>
      induction _) .pure

theorem fwriteFrom (fuel pcur : Nat) (pend : List UInt8) :
    Keeps view (Fs.fwriteFrom slot fuel pcur pend) := by
  induction fuel generalizing pcur pend with
  | zero => exact .pure
  | succ fuel induction =>
    exact .ite .pure (.bind (blind.blocknoOfData _ _) fun _ => .bind (blind.bread _) fun _ =>
      .bind (blind.bwrite _) fun _ => .bind (blind.brelse _) fun _ => induction _ _)

end Blind
end Tnix.Fs
