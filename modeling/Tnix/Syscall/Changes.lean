import Tnix.Syscall.Objects
import Tnix.Syscall.Sysfs

/-! # What the system calls do to references

One rule for each system call, collected in `Changes`. -/

namespace Tnix.Syscall

open Function Tnix.Fs Program Objects
variable {Task : Type} {mount : Mount Task}

/-! ## Creating and removing names -/

/-- `create` does not return in the middle for a new inode of the type. -/
def fillable (devsw : Fin NDEV → Bool) (type : Ftype) (dev : UInt32) : Bool :=
  match type with
  | .REGULAR => true
  | .DIRECTORY => true
  | .CHAR => if inRange : dev.toNat < NDEV then devsw ⟨dev.toNat, inRange⟩ else false
  | .UNUSE => false

/-- Whether the lookups of `create` find nothing under the path and a parent for it. -/
def creates (task : Task) (path : List UInt8) : FsM Task Bool := do
  match ← dentryFind task path with
  | some _ => return false
  | none => do
    let (parentpath, _) ← pathSplit path DLENGTH
    return (← dentryFind task parentpath).isSome

theorem createAs_spec (parent new : Fin NINODE) (type : Ftype) (dev : UInt32) :
    Ensures (createAs parent new type dev) mount fun done final =>
      final.objects = mount.objects ∧ (fillable mount.devsw type dev = true → done = true) := by
  simp only [createAs, ensures_bind, ensures_getInode]
  refine (blind_objects.setDi new _ mount).mono ?_
  intro _ linked same
  cases type with
  | REGULAR =>
    simp only [ensures_bind, ensures_getInode]
    refine (blind_objects.setDi new _ linked).mono ?_
    intro _ final kept
    exact ensures_pure.mpr ⟨kept.trans same, fun _ => rfl⟩
  | DIRECTORY =>
    simp only [ensures_bind, ensures_getInode]
    refine (blind_objects.setDi new _ linked).mono ?_
    intro _ typed kept
    refine (blind_objects.dentryAdd new _ _ typed).mono ?_
    intro _ withDot keptDot
    refine (blind_objects.dentryAdd new _ _ withDot).mono ?_
    intro _ withDots keptDots
    refine (blind_objects.setDi parent _ withDots).mono ?_
    intro _ final counted
    refine ensures_pure.mpr ⟨?_, fun _ => rfl⟩
    rw [counted, keptDots, keptDot, kept, same]
  | CHAR =>
    have sameDevsw : linked.devsw = mount.devsw := congrArg (·.handles.devsw) same
    simp only [devswValid, ensures_bind, ensures_get]
    split
    case isFalse => exact ensures_throw.mpr trivial
    case isTrue inRange =>
      rw [ensures_pure]
      split
      case isTrue =>
        simp only [ensures_bind, ensures_getInode]
        refine (blind_objects.setDi new _ linked).mono ?_
        intro _ final kept
        exact ensures_pure.mpr ⟨kept.trans same, fun _ => rfl⟩
      case isFalse invalid =>
        refine ensures_pure.mpr ⟨same, ?_⟩
        intro isFillable
        rw [fillable, dif_pos inRange, ← sameDevsw] at isFillable
        exact absurd isFillable invalid
  | UNUSE => exact ensures_pure.mpr ⟨same, (by rintro ⟨⟩)⟩

theorem objects_create (task : Task) (path : List UInt8) (type : Ftype) (dev : UInt32) :
    Ensures (create task path type dev) mount fun _ final =>
      final.objects.handles = mount.objects.handles ∧
        (fillable mount.devsw type dev = true ∨
            Ensures (creates task path) mount (fun new _ => new = false) →
          final.objects = mount.objects) := by
  rw [create, ensures_bind]
  intro found looked ran
  have gained := objects_dentryFind task path found looked ran
  have creating (without : Ensures (creates task path) mount fun new _ => new = false) :=
    ensures_bind.mp without found looked ran
  cases found with
  | some slot =>
    simp only [ensures_bind]
    refine objects_iput.mono ?_
    intro _ final dropped
    have same : final.objects = mount.objects := by
      rw [dropped, gained, Objects.gained, drop_gain]
    exact ensures_pure.mpr ⟨congrArg Objects.handles same, fun _ => same⟩
  | none =>
    simp only [ensures_bind]
    have splits : Keeps Mount.objects (pathSplit path DLENGTH : FsM Task _) :=
      keeps_pathSplit path DLENGTH
    intro names split ranSplit
    have sameSplit := splits looked names split ranSplit
    intro parent there ranParent
    have gainedParent := objects_dentryFind task names.1 parent there ranParent
    cases parent with
    | none =>
      have same : there.objects = mount.objects := by
        rw [gainedParent, Objects.gained, sameSplit, gained, Objects.gained]
      exact ensures_pure.mpr ⟨congrArg Objects.handles same, fun _ => same⟩
    | some parent =>
      have taken : there.objects = mount.objects.gain parent := by
        rw [gainedParent, sameSplit, gained]
        rfl
      have notFree (without : Ensures (creates task path) mount fun new _ => new = false) :
          False := by
        have reached := ensures_bind.mp (creating without) names split ranSplit
        have last := ensures_bind.mp reached (some parent) there ranParent
        exact absurd (ensures_pure.mp last) (by simp)
      simp only [ensures_bind]
      refine (blind_objects.ialloc there).mono ?_
      intro inum marked sameMarked
      refine (objects_iget inum).mono ?_
      intro new got gainedNew
      cases new with
      | none => exact ensures_throw.mpr trivial
      | some new =>
        have both : got.objects = (mount.objects.gain parent).gain new := by
          rw [gainedNew, sameMarked, taken]
          rfl
        have sameDevsw : got.devsw = mount.devsw := congrArg (·.handles.devsw) both
        refine ensures_pure.mpr ?_
        refine (createAs_spec parent new type dev).mono ?_
        rintro done filled ⟨sameFilled, fills⟩
        split
        case isFalse notDone =>
          refine ensures_pure.mpr ⟨?_, ?_⟩
          · rw [sameFilled, both]
            rfl
          · rintro (isFillable | without)
            · rw [sameDevsw] at fills
              exact absurd (fills isFillable) notDone
            · exact (notFree without).elim
        case isTrue =>
          simp only [ensures_bind, ensures_getInode]
          refine (blind_objects.iupdate new filled).mono ?_
          intro _ updated sameUpdated
          refine objects_iput.mono ?_
          intro _ put dropped
          refine (blind_objects.dentryAdd parent _ _ put).mono ?_
          intro _ added sameAdded
          refine objects_iput.mono ?_
          intro _ final droppedParent
          have same : final.objects = mount.objects := by
            rw [droppedParent, sameAdded, dropped, sameUpdated, sameFilled, both,
              drop_gain, drop_gain]
          exact ensures_pure.mpr ⟨congrArg Objects.handles same, fun _ => same⟩

theorem ensures_parent (task : Task) (path : List UInt8) (limit : Nat)
    {post : Fin NINODE → List UInt8 × List UInt8 → Mount Task → Prop}
    (rest : ∀ parent names there, there.objects = mount.objects.gain parent →
      post parent names there) :
    Ensures (pathSplit path limit) mount fun names split =>
      Ensures (dentryFind task names.1) split fun found there =>
        Ensures (deref found) there fun parent final => post parent names final := by
  have splits : Keeps Mount.objects (pathSplit path limit : FsM Task _) :=
    keeps_pathSplit path limit
  refine (splits mount).mono ?_
  intro names split sameSplit
  refine (objects_dentryFind task names.1).mono ?_
  intro parent there gained
  rw [sameSplit] at gained
  cases parent with
  | none => exact ensures_throw.mpr trivial
  | some parent => exact ensures_pure.mpr (rest parent names there gained)

variable {objects before after : Objects Task} {f : Fin FILE_CNT} {task : Task}
  {files : Fin NFILE → Option (Fin FILE_CNT)}

theorem ensures_iput_return {slot : Fin NINODE} {r : Int} (held : mount.objects =
    objects.gain slot) :
    Ensures (iput slot) mount fun _ put =>
      Ensures (pure r : FsM Task Int) put fun _ final => final.objects = objects := by
  refine objects_iput.mono ?_
  intro _ final dropped
  rw [ensures_pure, dropped, held, drop_gain]

section
variable (task : Task)

theorem objects_sysLink (oldpath newpath : List UInt8) :
    Keeps Mount.objects (sysLink task oldpath newpath) := by
  intro mount
  rw [sysLink]
  split
  · exact ensures_pure.mpr rfl
  · rw [ensures_bind]
    refine (objects_dentryFind task newpath).mono ?_
    intro found looked gained
    cases found with
    | some slot => exact ensures_bind.mpr (ensures_iput_return gained)
    | none =>
      rw [ensures_bind]
      refine (objects_dentryFind task oldpath).mono ?_
      intro old there gainedOld
      rw [gained] at gainedOld
      cases old with
      | none => exact ensures_pure.mpr gainedOld
      | some slot =>
        rw [ensures_bind, ensures_getInode]
        split
        · exact ensures_bind.mpr (ensures_iput_return gainedOld)
        · simp only [ensures_bind]
          refine (blind_objects.setDi slot _ there).mono ?_
          intro _ linked sameLinked
          refine (blind_objects.iupdate slot linked).mono ?_
          intro _ updated sameUpdated
          refine objects_iput.mono ?_
          intro _ put dropped
          have restored : put.objects = mount.objects := by
            rw [dropped, sameUpdated, sameLinked, gainedOld]
            exact drop_gain _ _
          refine ensures_parent task newpath DLENGTH ?_
          intro parent names found held
          refine (blind_objects.dentryAdd parent _ _ found).mono ?_
          intro _ added same
          exact ensures_iput_return (by rw [same, held, restored])

theorem objects_sysUnlink (path : List UInt8) : Keeps Mount.objects (sysUnlink task path) := by
  intro mount
  rw [sysUnlink]
  split
  · exact ensures_pure.mpr rfl
  · rw [ensures_bind]
    refine (objects_dentryFind task path).mono ?_
    intro found looked gained
    cases found with
    | none => exact ensures_pure.mpr gained
    | some slot =>
      rw [ensures_bind, ensures_getInode]
      split
      · exact ensures_bind.mpr (ensures_iput_return gained)
      · rw [ensures_bind]
        refine (blind_objects.setDi slot _ looked).mono ?_
        intro _ linked sameLinked
        dsimp only
        split
        all_goals simp only [ensures_bind]
        case' isTrue => refine (blind_objects.ifree slot linked).mono ?_
        case' isFalse => refine (blind_objects.iupdate slot linked).mono ?_
        all_goals
          intro _ less sameLess
          refine objects_iput.mono ?_
          intro _ put dropped
          have restored : put.objects = mount.objects := by
            rw [dropped, sameLess, sameLinked, gained]
            exact drop_gain _ _
          refine ensures_parent task path DLENGTH ?_
          intro parent names found held
          refine (blind_objects.dentryDel parent _ found).mono ?_
          intro _ deleted sameDeleted
          refine (blind_objects.iupdate parent deleted).mono ?_
          intro _ updated sameUpdated
          exact ensures_iput_return (by rw [sameUpdated, sameDeleted, held, restored])

/-- The path of `sys_rmdir` names nothing or an empty directory. -/
def rmdirFits (mount : Mount Task) (task : Task) (path : List UInt8) : Bool :=
  match dentryFind task path mount with
  | .ok (some slot, final) =>
    (final.icache slot).di.type == .DIRECTORY &&
      (final.disk ((final.icache slot).di.iblock ⟨0, by decide⟩).toNat).cnt == 2
  | _ => true

theorem objects_sysRmdir (path : List UInt8) : Ensures (sysRmdir task path) mount fun _ final =>
      final.objects.handles = mount.objects.handles ∧
        (rmdirFits mount task path = true → final.objects = mount.objects) := by
  rw [sysRmdir]
  split
  · exact ensures_pure.mpr ⟨rfl, fun _ => rfl⟩
  · rw [ensures_bind]
    intro found looked ran
    have gained := objects_dentryFind task path found looked ran
    rw [rmdirFits, ran]
    cases found with
    | none => exact ensures_pure.mpr ⟨congrArg Objects.handles gained, fun _ => gained⟩
    | some slot =>
      have sameHandles : looked.objects.handles = mount.objects.handles := by
        rw [gained, handles_gained]
      simp only [Bool.and_eq_true, beq_iff_eq]
      rw [ensures_bind, ensures_getInode]
      split
      case isTrue notDirectory =>
        exact ensures_pure.mpr ⟨sameHandles, fun fits => absurd fits.1 notDirectory⟩
      case isFalse =>
        simp only [iblockAt, ensures_bind, ensures_getInode]
        rw [dif_pos (by decide)]
        rw [ensures_pure, ensures_bread]
        intro _ _
        dsimp only
        split
        case isTrue notEmpty =>
          rw [ensures_bind]
          refine (blind_objects.brelse _ _).mono ?_
          intro _ released sameReleased
          refine ensures_pure.mpr ⟨?_, fun fits => absurd fits.2 notEmpty⟩
          rw [sameReleased]
          exact sameHandles
        case isFalse =>
          simp only [ensures_bind]
          refine (blind_objects.brelse _ _).mono ?_
          intro _ released sameReleased
          refine objects_iput.mono ?_
          intro _ put dropped
          have restored : put.objects = mount.objects := by
            rw [dropped, sameReleased]
            exact (congrArg (Objects.drop · slot) gained).trans (drop_gain _ _)
          refine ensures_parent task path MAX_PATH_LENGTH ?_
          intro parent names found held
          refine (blind_objects.dentryDel parent _ found).mono ?_
          intro _ deleted sameDeleted
          rw [ensures_getInode]
          refine (blind_objects.setDi parent _ deleted).mono ?_
          intro _ linked sameLinked
          refine (blind_objects.iupdate parent linked).mono ?_
          intro _ updated sameUpdated
          refine objects_iput.mono ?_
          intro _ final droppedParent
          have same : final.objects = mount.objects := by
            rw [droppedParent, sameUpdated, sameLinked, sameDeleted, held, restored, drop_gain]
          exact ensures_pure.mpr ⟨congrArg Objects.handles same, fun _ => same⟩

/-! ## Descriptors -/

theorem objects_setFsStruct [DecidableEq Task] (task : Task) (fsStruct : Option FsStruct) :
    ({ mount with tasks := update mount.tasks task fsStruct }).objects =
      mount.objects.setTask task fsStruct := rfl

theorem objects_fill (f : Fin FILE_CNT) (type : FileType) (mode : Nat)
    (pointer : FilePointer) : Ensures (fill f type mode pointer) mount fun _ final =>
      final.objects = mount.objects.setFile f
        { mount.objects.handles.files f with type := type, pointer := pointer } := by
  simp only [fill, ensures_bind, ensures_getFile, ensures_setFile, objects_setChunk]
  rfl

theorem allocated_fill {handle : Handle} (allocated : before.Allocated mount.objects f handle)
    (one : handle.refc = 1) (inuse : handle.inuse = true) (type : FileType) (mode : Nat)
    (pointer : FilePointer) :
    Ensures (fill f type mode pointer) mount fun _ final =>
      before.Allocated final.objects f (.new type pointer) := by
  refine (objects_fill f type mode pointer).mono ?_
  intro _ final filled
  rw [filled, allocated.files_self]
  have new : { handle with type := type, pointer := pointer } = Handle.new type pointer := by
    simp only [Handle.new, one, inuse]
  rw [new]
  exact allocated.setFile _

def Installed [DecidableEq Task] (before after : Objects Task) (task : Task)
    (f : Fin FILE_CNT) (r : Int) : Prop :=
  ∃ fsStruct, before.handles.tasks task = some fsStruct ∧
    ∃ inRange : fsStruct.fdx < NFILE, r = fsStruct.fdx ∧
      after = before.setTask task (some (moveFdi { fsStruct with
        files := update fsStruct.files ⟨fsStruct.fdx, inRange⟩ (some f) }))

theorem objects_installFile [DecidableEq Task] (f : Fin FILE_CNT) :
    Ensures (installFile task f) mount fun r final =>
      Installed mount.objects final.objects task f r := by
  simp only [installFile, ensures_bind, ensures_getFsStruct]
  intro fsStruct running
  split
  case isTrue inRange =>
    simp only [ensures_bind, ensures_setFsStruct, ensures_pure, objects_setFsStruct]
    exact ⟨fsStruct, running, inRange, rfl, rfl⟩
  case isFalse => exact ensures_throw.mpr trivial

theorem Installed.nonneg [DecidableEq Task] {r : Int} (installed : Installed before after task f r)
    :
    0 ≤ r := by
  rcases installed with ⟨fsStruct, _, _, isFdx, _⟩
  rw [isFdx]
  exact Int.natCast_nonneg _

theorem ensures_descriptor {fd : Int} {post : Fin NFILE → Mount Task → Prop}
    (holds : ∀ index : Fin NFILE, fd = index → post index mount) :
    Ensures (descriptor fd) mount post := by
  rw [descriptor]
  split
  case isTrue inRange =>
    split
    case isTrue nonneg =>
      exact ensures_pure.mpr (holds ⟨fd.toNat, inRange⟩ (Int.toNat_of_nonneg nonneg).symm)
    case isFalse => exact ensures_throw.mpr trivial
  case isFalse => exact ensures_throw.mpr trivial

theorem avoids_getFsStruct (message : String) :
    Avoids (getFsStruct task) mount (.panic message) := by
  rw [getFsStruct, avoids_bind]
  refine ⟨(by rintro ⟨⟩), ensures_get.mpr ?_⟩
  split
  · rintro ⟨⟩
  · exact fun same => by cases same

theorem avoids_descriptor (fd : Int) (message : String) :
    Avoids (descriptor fd) mount (.panic message) := by
  rw [descriptor]
  split
  · split
    · exact nofun
    · exact fun same => by cases same
  · exact fun same => by cases same

def Opened [DecidableEq Task] (before after : Objects Task) (task : Task) (r : Int) : Prop :=
  ∃ slot f type middle, (type = .INODE ∨ type = .DEVICE) ∧
    (before.gain slot).Allocated middle f (.new type (.inode slot)) ∧
    Installed middle after task f r

theorem objects_openFile [DecidableEq Task] (slot : Fin NINODE) (mode : Nat)
    (held : mount.objects = objects.gain slot) :
    Ensures (openFile task slot mode) mount fun r final => Opened objects final.objects task r := by
  simp only [openFile, ensures_bind]
  refine objects_falloc.mono ?_
  rintro f allocated ⟨handle, one, inuse, isAllocated⟩
  rw [held] at isAllocated
  rw [ensures_getInode]
  refine (allocated_fill isAllocated one inuse _ mode _).mono ?_
  intro _ filled isFilled
  rw [ensures_getFile]
  refine Ensures.mono (objects_setFile rfl rfl rfl) ?_
  intro _ placed same
  refine (objects_installFile task f).mono ?_
  intro r final installed
  rw [same] at installed
  refine ⟨slot, f, _, filled.objects, ?_, isFilled, installed⟩
  split
  · exact .inr rfl
  · exact .inl rfl

theorem objects_openInode [DecidableEq Task] (slot : Fin NINODE) (mode : Nat)
    (held : mount.objects = objects.gain slot) :
    Ensures (openInode task slot mode) mount fun r final =>
      r < 0 ∧ final.objects = objects ∨ Opened objects final.objects task r := by
  rw [openInode, ensures_bind, ensures_getInode]
  split
  · rw [ensures_bind]
    refine objects_iput.mono ?_
    intro _ final dropped
    refine ensures_pure.mpr (.inl ⟨by decide, ?_⟩)
    rw [dropped, held, drop_gain]
  · split
    · simp only [ensures_bind]
      refine (blind_objects.itrunc slot mount).mono ?_
      intro _ cut sameCut
      refine (blind_objects.iupdate slot cut).mono ?_
      intro _ updated sameUpdated
      have holding : updated.objects = objects.gain slot := by
        rw [sameUpdated, sameCut, held]
      exact (objects_openFile task slot mode holding).mono fun _ _ => .inr
    · exact (objects_openFile task slot mode held).mono fun _ _ => .inr

theorem objects_sysOpen [DecidableEq Task] (path : List UInt8) (mode : Nat) :
    Ensures (sysOpen task path mode) mount fun r final =>
      r < 0 ∧ final.objects = mount.objects ∨ Opened mount.objects final.objects task r := by
  rw [sysOpen]
  split
  · exact ensures_pure.mpr (.inl ⟨by decide, rfl⟩)
  · split
    · exact ensures_pure.mpr (.inl ⟨by decide, rfl⟩)
    · rw [ensures_bind]
      refine (objects_dentryFind task path).mono ?_
      intro found looked gained
      cases found with
      | some slot => exact objects_openInode task slot mode gained
      | none =>
        dsimp only
        split
        · exact ensures_pure.mpr (.inl ⟨by decide, gained⟩)
        · rw [ensures_bind]
          refine (objects_create task path .REGULAR _).mono ?_
          rintro r created ⟨_, keeps⟩
          have same : created.objects = mount.objects :=
            (keeps (.inl rfl)).trans gained
          split
          case isTrue negative => exact ensures_pure.mpr (.inl ⟨negative, same⟩)
          case isFalse =>
            simp only [ensures_bind]
            refine (objects_dentryFind task path).mono ?_
            intro again there gainedAgain
            rw [same] at gainedAgain
            cases again with
            | none => exact ensures_throw.mpr trivial
            | some slot => exact ensures_pure.mpr (objects_openInode task slot mode gainedAgain)

theorem objects_sysMkdir (path : List UInt8) : Keeps Mount.objects (sysMkdir task path) := by
  intro mount
  rw [sysMkdir]
  split
  · exact ensures_pure.mpr rfl
  · refine (objects_create task path .DIRECTORY _).mono ?_
    exact fun _ _ kept => kept.2 (.inl rfl)

/-- The device of `sys_mknod` is valid, or the call creates nothing. -/
def mknodFits (mount : Mount Task) (task : Task) (path : List UInt8) (dev : UInt32) : Bool :=
  fillable mount.devsw .CHAR dev ||
    match creates task path mount with
    | .ok (new, _) => !new
    | .error _ => true

theorem objects_sysMknod (path : List UInt8) (dev : UInt32) :
    Ensures (sysMknod task path dev) mount fun _ final =>
      final.objects.handles = mount.objects.handles ∧
        (mknodFits mount task path dev = true → final.objects = mount.objects) := by
  rw [sysMknod]
  split
  · exact ensures_pure.mpr ⟨rfl, fun _ => rfl⟩
  · refine (objects_create task path .CHAR dev).mono ?_
    rintro _ final ⟨sameHandles, keeps⟩
    refine ⟨sameHandles, ?_⟩
    intro fits
    rcases Bool.or_eq_true _ _ ▸ fits with valid | without
    · exact keeps (.inl valid)
    · refine keeps (.inr ?_)
      intro new there ran
      rw [ran] at without
      simpa using without

def Moved [DecidableEq Task] (before after : Objects Task) (task : Task) : Prop :=
  ∃ slot fsStruct, before.handles.tasks task = some fsStruct ∧
    after = ((before.gain slot).drop fsStruct.cwd).setTask task
      (some { fsStruct with cwd := slot })

theorem objects_sysChdir [DecidableEq Task] (path : List UInt8) :
    Ensures (sysChdir task path) mount fun r final => r < 0 ∧ final.objects = mount.objects ∨
        0 ≤ r ∧ Moved mount.objects final.objects task := by
  rw [sysChdir]
  split
  · exact ensures_pure.mpr (.inl ⟨by decide, rfl⟩)
  · rw [ensures_bind]
    refine (objects_dentryFind task path).mono ?_
    intro found looked gained
    cases found with
    | none => exact ensures_pure.mpr (.inl ⟨by decide, gained⟩)
    | some slot =>
      simp only [ensures_bind, ensures_getFsStruct]
      intro fsStruct running
      refine objects_iput.mono ?_
      intro _ put dropped
      rw [ensures_setFsStruct, ensures_pure, objects_setFsStruct, dropped, gained]
      refine .inr ⟨le_refl 0, slot, fsStruct, ?_, rfl⟩
      have sameTasks : looked.tasks = mount.tasks := congrArg (·.handles.tasks) gained
      exact (congrFun sameTasks task).symm.trans running

/-! ## Reading and writing -/

theorem objects_setOff {file : File} (off : UInt32) (same : (mount.files f).obj = file) :
    Ensures (setFile f { file with off := off }) mount fun _ final =>
      final.objects = mount.objects := by
  subst same
  exact objects_setFile rfl rfl rfl

theorem blind_files : Blind (Mount.files : Mount Task → _) where
  disk _ _ := rfl
  held _ _ := rfl
  di _ _ _ := rfl

theorem objects_fread (f : Fin FILE_CNT) (bytes : UInt32) :
    Keeps Mount.objects (fread f bytes : FsM Task _) := by
  intro mount
  simp only [fread, fileInode, ensures_bind, ensures_getFile]
  split
  · simp only [ensures_pure, ensures_getInode]
    refine Ensures.mono ((blind_objects.freadFrom _ _ _ _ mount).and
      (blind_files.freadFrom _ _ _ _ mount)) ?_
    rintro delivered read ⟨same, sameFiles⟩
    refine (objects_setOff _ (by rw [sameFiles])).mono ?_
    intro _ final kept
    exact kept.trans same
  · exact ensures_throw.mpr trivial

theorem objects_fwrite (f : Fin FILE_CNT) (buf : List UInt8) :
    Keeps Mount.objects (fwrite f buf : FsM Task _) := by
  intro mount
  simp only [fwrite, fileInode, ensures_bind, ensures_getFile]
  split
  · simp only [ensures_pure, ensures_getInode]
    refine Ensures.mono ((blind_objects.fwriteGrow _ _ _ _ mount).and
      (blind_files.fwriteGrow _ _ _ _ mount)) ?_
    rintro _ grown ⟨sameGrown, sameGrownFiles⟩
    refine Ensures.mono ((blind_objects.fwriteFrom _ _ _ _ grown).and
      (blind_files.fwriteFrom _ _ _ _ grown)) ?_
    rintro _ written ⟨sameWritten, sameWrittenFiles⟩
    refine (objects_setOff _ (by rw [sameWrittenFiles, sameGrownFiles])).mono ?_
    intro _ placed samePlaced
    refine (blind_objects.setDi _ _ placed).mono ?_
    intro _ sized sameSized
    refine (blind_objects.iupdate _ sized).mono ?_
    intro _ final sameFinal
    rw [sameFinal, sameSized, samePlaced, sameWritten, sameGrown]
  · exact ensures_throw.mpr trivial

theorem objects_setRing {p : Fin NPIPE} (pipe : Pipe) :
    Ensures (setPipe p { mount.pipes p with pipe := pipe }) mount fun _ final =>
      final.objects = mount.objects := by
  rw [ensures_setPipe, objects_setPipe]
  exact congrArg (fun pipes => { mount.objects with
    handles := { mount.objects.handles with pipes := pipes } }) (update_eq_self _ _)

theorem objects_piperead (p : Fin NPIPE) (len : UInt32) :
    Keeps Mount.objects (piperead p len : FsM Task _) := by
  intro mount
  simp only [piperead, ensures_bind, ensures_getPipe]
  split
  · rw [ensures_bind]
    exact (objects_setRing _).mono fun _ _ same => ensures_pure.mpr same
  · exact ensures_throw.mpr trivial

theorem objects_pipewriteFrom (p : Fin NPIPE) (usrc : List UInt8) (fuel : Nat)
    (totalWritten : UInt32) :
    Keeps Mount.objects (pipewriteFrom p usrc fuel totalWritten : FsM Task _) := by
  induction fuel generalizing totalWritten with
  | zero => exact .pure
  | succ fuel induction =>
    refine .ite ?_ .pure
    intro mount
    simp only [ensures_bind, ensures_getPipe]
    split
    · rw [ensures_bind]
      refine (objects_setRing _).mono ?_
      intro _ stored same
      exact (induction _ stored).mono fun _ _ kept => kept.trans same
    · exact ensures_throw.mpr trivial

theorem objects_sysRead (fd : Int) (len answer : UInt32) :
    Keeps Mount.objects (sysRead task fd len answer) := by
  intro mount
  simp only [sysRead, ensures_bind, ensures_getFsStruct]
  intro fsStruct _
  refine ensures_descriptor ?_
  intro index _
  split
  · exact ensures_pure.mpr rfl
  · rw [ensures_bind, ensures_getFile]
    split
    · exact ensures_pure.mpr rfl
    · split
      · exact ensures_pure.mpr rfl
      · exact ensures_pure.mpr rfl
      · exact ((objects_fread _ len).bind fun _ => .pure) mount
      · split
        · exact ((objects_piperead _ len).bind fun _ => .pure) mount
        · exact ensures_throw.mpr trivial

theorem objects_sysWrite (fd : Int) (usrc : List UInt8) (answer : UInt32) :
    Keeps Mount.objects (sysWrite task fd usrc answer) := by
  intro mount
  simp only [sysWrite, ensures_bind, ensures_getFsStruct]
  intro fsStruct _
  refine ensures_descriptor ?_
  intro index _
  split
  · exact ensures_pure.mpr rfl
  · rw [ensures_bind, ensures_getFile]
    split
    · exact ensures_pure.mpr rfl
    · split
      · exact ensures_pure.mpr rfl
      · exact ensures_pure.mpr rfl
      · exact ((objects_fwrite _ usrc).bind fun _ => .pure) mount
      · split
        · exact (((objects_pipewriteFrom _ usrc _ _).bind fun _ => .pure).bind
            fun _ => .pure) mount
        · exact ensures_throw.mpr trivial

/-! ## Duplicating and closing -/

def Duplicated [DecidableEq Task] (before after : Objects Task) (task : Task) (r : Int) : Prop :=
  ∃ fsStruct fd f, before.handles.tasks task = some fsStruct ∧ fsStruct.files fd = some f ∧
    let handle := before.handles.files f
    1 ≤ handle.refc ∧
      Installed (before.setFile f { handle with refc := handle.refc + 1 }) after task f r

theorem objects_sysDup [DecidableEq Task] (fd : Int) :
    Ensures (sysDup task fd) mount fun r final => r < 0 ∧ final.objects = mount.objects ∨
        Duplicated mount.objects final.objects task r := by
  simp only [sysDup, ensures_bind, ensures_getFsStruct]
  intro fsStruct running
  refine ensures_descriptor ?_
  intro index _
  split
  case h_1 => exact ensures_pure.mpr (.inl ⟨by decide, rfl⟩)
  case h_2 f found =>
    rw [ensures_bind]
    refine (objects_fdup f).mono ?_
    rintro _ counted ⟨atLeast, more⟩
    refine (objects_installFile task f).mono ?_
    intro r final installed
    rw [more] at installed
    exact .inr ⟨fsStruct, index, f, running, found, atLeast, installed⟩

def Released [DecidableEq Task] (before after : Objects Task) (task : Task) : Prop :=
  ∃ fsStruct fd f middle, before.handles.tasks task = some fsStruct ∧
    fsStruct.files fd = some f ∧ before.Closed middle f ∧
    after = middle.setTask task (some { fsStruct with
      files := update fsStruct.files fd none
      fdx := min fd.val fsStruct.fdx })

theorem objects_sysClose [DecidableEq Task] (fd : Int) :
    Ensures (sysClose task fd) mount fun r final => r < 0 ∧ final.objects = mount.objects ∨
        0 ≤ r ∧ Released mount.objects final.objects task := by
  simp only [sysClose, ensures_bind, ensures_getFsStruct]
  intro fsStruct running
  refine ensures_descriptor ?_
  intro index _
  split
  case h_1 => exact ensures_pure.mpr (.inl ⟨by decide, rfl⟩)
  case h_2 f found =>
    rw [ensures_bind]
    refine (objects_fclose f).mono ?_
    intro _ closed isClosed
    rw [ensures_bind, ensures_setFsStruct, ensures_pure, objects_setFsStruct]
    exact .inr ⟨le_refl 0, fsStruct, index, f, closed.objects, running, found, isClosed, rfl⟩

/-- A new pipe with its two file objects, and two descriptors for the first of them. -/
def Piped [DecidableEq Task] (before after : Objects Task) (task : Task) : Prop :=
  ∃ p rf wf reader writer first r r', before.handles.pipes p = 0 ∧
    (before.setPipe p 2).Allocated reader rf (.new .PIPE (.pipe p)) ∧
    reader.Allocated writer wf (.new .PIPE (.pipe p)) ∧
    Installed writer first task rf r ∧ Installed first after task rf r'

theorem objects_sysPipe [DecidableEq Task] :
    Ensures (sysPipe task) mount fun r final => 0 ≤ r ∧ Piped mount.objects final.objects task := by
  simp only [sysPipe, ensures_bind]
  refine objects_pipealloc.mono ?_
  rintro p claimed ⟨unused, isClaimed⟩
  refine objects_falloc.mono ?_
  rintro rf reader ⟨handle, one, inuse, forReader⟩
  refine objects_falloc.mono ?_
  rintro wf writer ⟨second, oneToo, inuseToo, forWriter⟩
  refine (objects_fill rf .PIPE _ _).mono ?_
  intro _ filled isFilled
  -- `wf` was allocated with `rf` in use, so it is another object.
  have readerKept : writer.objects.handles.files rf = handle := by
    rcases forWriter with ⟨files, fresh, after⟩
    have used : (reader.objects.handles.files rf).inuse = true := by
      rw [forReader.files_self]
      exact inuse
    have different : rf ≠ wf := by
      rintro rfl
      rw [fresh.free] at used
      cases used
    rw [after]
    refine (update_of_ne different _ _).trans ?_
    rcases fresh.others rf different with same | ⟨free, _⟩
    · exact same.trans forReader.files_self
    · rw [free] at used
      cases used
  have new : { writer.objects.handles.files rf with type := .PIPE, pointer := .pipe p } =
      Handle.new .PIPE (.pipe p) := by
    rw [readerKept]
    simp only [Handle.new, one, inuse]
  rw [new] at isFilled
  rcases forReader.setFile_before inuse forWriter (.new .PIPE (.pipe p)) with
    ⟨readerFilled, writerNext⟩
  rw [← isFilled] at writerNext
  refine (allocated_fill writerNext oneToo inuseToo .PIPE _ (.pipe p)).mono ?_
  intro _ filledToo writerFilled
  refine (objects_installFile task rf).mono ?_
  intro r first installed
  refine (objects_installFile task rf).mono ?_
  intro r' final installedToo
  rw [isClaimed] at readerFilled
  exact ensures_pure.mpr ⟨le_refl 0, p, rf, wf, _, _, _, r, r', unused, readerFilled,
    writerFilled, installed, installedToo⟩

/-! ## Forking and exiting -/

/-- Copies of file objects for the descriptors of a list, each with a reference to what
the object is for. The tables are those before and after. -/
inductive CopiesFrom : List (Fin NFILE) → (Fin NFILE → Option (Fin FILE_CNT)) → Objects Task →
    (Fin NFILE → Option (Fin FILE_CNT)) → Objects Task → Prop
  | nil {files : Fin NFILE → Option (Fin FILE_CNT)} {objects : Objects Task} :
      CopiesFrom [] files objects files objects
  | skip {fd : Fin NFILE} {rest : List (Fin NFILE)}
      {files files' : Fin NFILE → Option (Fin FILE_CNT)} {before after : Objects Task} :
      files fd = none → CopiesFrom rest files before files' after →
      CopiesFrom (fd :: rest) files before files' after
  | copy {fd : Fin NFILE} {rest : List (Fin NFILE)}
      {files files' : Fin NFILE → Option (Fin FILE_CNT)} {before middle after : Objects Task}
      {pf f : Fin FILE_CNT} {type : FileType} {pointer : FilePointer} :
      files fd = some pf → before.Allocated middle f (.new type pointer) →
      CopiesFrom rest (update files fd (some f)) (middle.get (.new type pointer))
        files' after →
      CopiesFrom (fd :: rest) files before files' after

theorem CopiesFrom.tasks {fds : List (Fin NFILE)} {files' : Fin NFILE → Option (Fin FILE_CNT)}
    (copies : CopiesFrom fds files before files' after) :
    after.handles.tasks = before.handles.tasks := by
  induction copies with
  | nil => rfl
  | skip _ _ induction => exact induction
  | copy _ allocated _ induction =>
    rw [induction, tasks_get, allocated.tasks]

theorem objects_fget {file : File} (handle : Handle) (sameType : handle.type = file.type)
    (samePointer : handle.pointer = file.pointer) :
    Ensures (fget file) mount fun _ final => final.objects = mount.objects.get handle := by
  rcases file with ⟨mode, type, refc, off, pointer⟩
  rcases handle with ⟨type', refc', pointer', inuse⟩
  cases sameType
  cases samePointer
  cases type <;> cases pointer <;>
    first
    | exact ensures_pure.mpr rfl
    | exact ensures_throw.mpr trivial
    | exact objects_iref
    | exact objects_pipeget _

theorem objects_copyFilesFrom (fds : List (Fin NFILE)) (files : Fin NFILE → Option (Fin FILE_CNT)) :
    Ensures (copyFilesFrom fds files) mount fun files' final =>
      CopiesFrom fds files mount.objects files' final.objects := by
  induction fds generalizing files mount with
  | nil => exact ensures_pure.mpr .nil
  | cons fd rest induction =>
    rw [copyFilesFrom]
    split
    case h_1 free =>
      exact (induction files).mono fun _ _ copies => .skip free copies
    case h_2 pf isOpen =>
      simp only [ensures_bind]
      refine objects_falloc.mono ?_
      rintro f allocated ⟨handle, one, inuse, isAllocated⟩
      rw [ensures_getFile]
      refine (allocated_fill isAllocated one inuse _ _ _).mono ?_
      intro _ filled isFilled
      refine (objects_fget (.new _ _) rfl rfl).mono ?_
      intro _ taken isTaken
      refine (induction _).mono ?_
      intro files' final copies
      rw [isTaken] at copies
      exact .copy isOpen isFilled copies

/-- The child has the parent's working directory and copies of its file objects. -/
def Forked [DecidableEq Task] (before after : Objects Task) (task child : Task) : Prop :=
  ∃ fsStruct files middle, before.handles.tasks task = some fsStruct ∧
    CopiesFrom (List.finRange NFILE) fsStruct.files (before.gain fsStruct.cwd) files middle ∧
    after = middle.setTask child (some { fsStruct with files := files })

theorem objects_copyFs [DecidableEq Task] (child parent : Task) :
    Ensures (copyFs child parent) mount fun _ final =>
      Forked mount.objects final.objects parent child := by
  simp only [copyFs, ensures_bind, ensures_getFsStruct]
  intro fsStruct running
  refine objects_iref.mono ?_
  intro _ held gained
  refine (objects_copyFilesFrom _ _).mono ?_
  intro files copied copies
  rw [ensures_setFsStruct, objects_setFsStruct]
  rw [gained] at copies
  exact ⟨fsStruct, files, copied.objects, running, copies, rfl⟩

inductive ClosesFrom (files : Fin NFILE → Option (Fin FILE_CNT)) :
    List (Fin NFILE) → Objects Task → Objects Task → Prop
  | nil {objects : Objects Task} : ClosesFrom files [] objects objects
  | skip {fd : Fin NFILE} {rest : List (Fin NFILE)} {before after : Objects Task} :
      files fd = none → ClosesFrom files rest before after →
      ClosesFrom files (fd :: rest) before after
  | close {fd : Fin NFILE} {rest : List (Fin NFILE)} {before middle after : Objects Task}
      {f : Fin FILE_CNT} :
      files fd = some f → before.Closed middle f → ClosesFrom files rest middle after →
      ClosesFrom files (fd :: rest) before after

theorem ClosesFrom.tasks {fds : List (Fin NFILE)} (closes : ClosesFrom files fds before after) :
    after.handles.tasks = before.handles.tasks := by
  induction closes with
  | nil => rfl
  | skip _ _ induction => exact induction
  | close _ closed _ induction => rw [induction, closed.tasks]

theorem objects_closeFilesFrom (files : Fin NFILE → Option (Fin FILE_CNT))
    (fds : List (Fin NFILE)) :
    Ensures (closeFilesFrom files fds) mount fun _ final =>
      ClosesFrom files fds mount.objects final.objects := by
  induction fds generalizing mount with
  | nil => exact ensures_pure.mpr .nil
  | cons fd rest induction =>
    rw [closeFilesFrom]
    split
    case h_1 free => exact induction.mono fun _ _ closes => .skip free closes
    case h_2 f isOpen =>
      rw [ensures_bind]
      refine (objects_fclose f).mono ?_
      intro _ closed isClosed
      exact induction.mono fun _ _ closes => .close isOpen isClosed closes

def Exited [DecidableEq Task] (before after : Objects Task) (task : Task) : Prop :=
  ∃ fsStruct middle, before.handles.tasks task = some fsStruct ∧
    ClosesFrom fsStruct.files (List.finRange NFILE) (before.drop fsStruct.cwd) middle ∧
    after = middle.setTask task none

theorem objects_sysExit [DecidableEq Task] : Ensures (sysExit task) mount fun r final =>
      0 ≤ r ∧ Exited mount.objects final.objects task := by
  simp only [sysExit, cleanFsSource, ensures_bind, ensures_getFsStruct]
  intro fsStruct running
  refine objects_iput.mono ?_
  intro _ put dropped
  refine (objects_closeFilesFrom _ _).mono ?_
  intro _ closed closes
  rw [ensures_setFsStruct, ensures_pure, objects_setFsStruct]
  rw [dropped] at closes
  exact ⟨le_refl 0, fsStruct, closed.objects, running, closes, rfl⟩

/-! ## All calls -/

/-- `sys_rmdir` and `sys_mknod` are called for something they can do, or for nothing. -/
def fits (mount : Mount Task) (task : Task) : Call Task → Bool
  | .sysRmdir path => rmdirFits mount task path
  | .sysMknod path dev => mknodFits mount task path dev
  | _ => true

/-- What a call that returned `r` has done. -/
inductive Changes [DecidableEq Task] (task : Task) (fits : Prop) (before : Objects Task) :
    Call Task → Int → Objects Task → Prop
  | same {call : Call Task} {r : Int} : Changes task fits before call r before
  /-- References to inodes are taken and not given back. -/
  | leaked {call : Call Task} {r : Int} {after : Objects Task} :
      ¬fits → after.handles = before.handles → Changes task fits before call r after
  | opened {path : List UInt8} {mode : Nat} {r : Int} {after : Objects Task} :
      Opened before after task r → Changes task fits before (.sysOpen path mode) r after
  | moved {path : List UInt8} {r : Int} {after : Objects Task} :
      0 ≤ r → Moved before after task → Changes task fits before (.sysChdir path) r after
  | duplicated {fd : Int} {r : Int} {after : Objects Task} :
      Duplicated before after task r → Changes task fits before (.sysDup fd) r after
  | released {fd : Int} {r : Int} {after : Objects Task} :
      0 ≤ r → Released before after task → Changes task fits before (.sysClose fd) r after
  | piped {r : Int} {after : Objects Task} :
      0 ≤ r → Piped before after task → Changes task fits before .sysPipe r after
  | forked {child : Task} {pid : UInt16} {r : Int} {after : Objects Task} :
      0 ≤ r → Forked before after task child →
      Changes task fits before (.sysFork (some (child, pid))) r after
  | exited {r : Int} {after : Objects Task} :
      0 ≤ r → Exited before after task → Changes task fits before .sysExit r after

namespace Changes

variable [DecidableEq Task] {task : Task} {fits : Prop} {before after : Objects Task}
  {call : Call Task} {r : Int}

theorem ofSame (same : after = before) : Changes task fits before call r after := by
  subst same
  exact .same

theorem ofFits (kept : after.handles = before.handles ∧ (fits → after = before)) :
    Changes task fits before call r after := by
  by_cases isFit : fits
  · exact .ofSame (kept.2 isFit)
  · exact .leaked isFit kept.1

theorem ofCases {Change : Prop} (cases : r < 0 ∧ after = before ∨ Change)
    (changed : Change → Changes task fits before call r after) :
    Changes task fits before call r after := by
  rcases cases with ⟨_, same⟩ | change
  · exact .ofSame same
  · exact changed change

theorem failed (isFit : fits) (negative : r < 0)
    (changes : Changes task fits before call r after) : after = before := by
  cases changes with
  | same => rfl
  | leaked notFit => exact absurd isFit notFit
  | opened opened =>
    rcases opened with ⟨_, _, _, _, _, _, installed⟩
    exact absurd negative (Int.not_lt.mpr installed.nonneg)
  | moved nonneg => omega
  | duplicated duplicated =>
    rcases duplicated with ⟨_, _, _, _, _, _, installed⟩
    exact absurd negative (Int.not_lt.mpr installed.nonneg)
  | released nonneg => omega
  | piped nonneg => omega
  | forked nonneg => omega
  | exited nonneg => omega

end Changes

theorem changes_run [DecidableEq Task] (call : Call Task) :
    Ensures (call.run task) mount fun r final =>
      Changes task (fits mount task call) mount.objects call r final.objects := by
  cases call with
  | sysOpen path mode =>
    exact (objects_sysOpen task path mode).mono fun _ _ done => .ofCases done .opened
  | sysMkdir path => exact (objects_sysMkdir task path mount).mono fun _ _ => .ofSame
  | sysLink oldpath newpath =>
    exact (objects_sysLink task oldpath newpath mount).mono fun _ _ => .ofSame
  | sysUnlink path => exact (objects_sysUnlink task path mount).mono fun _ _ => .ofSame
  | sysRmdir path => exact (objects_sysRmdir task path).mono fun _ _ => .ofFits
  | sysMknod path dev => exact (objects_sysMknod task path dev).mono fun _ _ => .ofFits
  | sysChdir path =>
    exact (objects_sysChdir task path).mono fun _ _ done =>
      .ofCases done fun moved => .moved moved.1 moved.2
  | sysRead fd len answer =>
    exact (objects_sysRead task fd len answer mount).mono fun _ _ => .ofSame
  | sysWrite fd usrc answer =>
    exact (objects_sysWrite task fd usrc answer mount).mono fun _ _ => .ofSame
  | sysDup fd =>
    exact (objects_sysDup task fd).mono fun _ _ done => .ofCases done .duplicated
  | sysClose fd =>
    exact (objects_sysClose task fd).mono fun _ _ done =>
      .ofCases done fun released => .released released.1 released.2
  | sysPipe => exact (objects_sysPipe task).mono fun _ _ done => .piped done.1 done.2
  | sysFork child =>
    cases child with
    | none => exact ensures_pure.mpr .same
    | some child =>
      refine ensures_bind.mpr ((objects_copyFs child.1 task).mono ?_)
      exact fun _ _ forked => ensures_pure.mpr (.forked (Int.natCast_nonneg _) forked)
  | sysExit => exact (objects_sysExit task).mono fun _ _ done => .exited done.1 done.2

end

section
variable [DecidableEq Task] {init : Task} (booted : Booted init mount)
include booted

theorem Booted.heldNone {Target : Type} (look : Handle → Option Target) :
    mount.objects.held look = fun _ => none := by
  funext f
  exact congrArg (Handle.live look ∘ FileChunk.handle) (congrFun booted.files f)

theorem Booted.unused : mount.objects.Unused := by
  intro f _
  exact congrArg (Handle.refc ∘ FileChunk.handle) (congrFun booted.files f)

end

theorem step_cases [DecidableEq Task] {init : Task} {call : Call Task} {next : Mount Task}
    (stepped : (machine init).step mount (task, call) = some next) :
    call.enabled mount task = true ∧ ∃ r, call.run task mount = .ok (r, next) := by
  simp only [machine] at stepped
  split at stepped
  case isFalse => cases stepped
  case isTrue isEnabled =>
    split at stepped
    case h_1 r final ran =>
      cases stepped
      exact ⟨isEnabled, r, ran⟩
    case h_2 => cases stepped

theorem free_of_enabled {child : Task} {call : Call Task} {pid : UInt16}
    (isEnabled : call.enabled mount task = true) (isFork : call = .sysFork (some (child, pid))) :
    mount.objects.handles.tasks child = none := by
  subst isFork
  simp only [Call.enabled, Bool.and_eq_true, Option.isNone_iff_eq_none] at isEnabled
  exact isEnabled.2

/-! ## A small image -/

def imageRoot : Block :=
  setEntry (setEntry (setEntry ((0 : Block).setU64 0 3) 1 0 [dot]) 2 0 [dot, dot]) 3 1 [102]

def imageRootDi : Dinode :=
  ⟨.DIRECTORY, 0, 2, UInt32.ofNat BSIZE, fun i => if i.val = 0 then 701 else 0⟩

def imageFileDi : Dinode := ⟨.REGULAR, 0, 1, 0, fun _ => 0⟩

/-- A disk with the root directory and an empty file, as the first task finds it. -/
def image : Mount (Fin NPROC) where
  sb := ⟨2, 3, 700, 701⟩
  disk blockno :=
    if blockno = 2 then 3
    else if blockno = 3 then ((0 : Block).setDinode 0 imageRootDi).setDinode 1 imageFileDi
    else if blockno = 700 then 1
    else if blockno = 701 then imageRoot
    else 0
  icache slot :=
    if slot = 0 then ⟨imageRootDi, some (), 0, 1⟩
    else ⟨⟨.UNUSE, 0, 0, 0, fun _ => 0⟩, none, 0, 0⟩
  tasks := update (fun _ => none) 0 (some ⟨0, fun _ => none, 0⟩)
  files _ := .zero
  pipes _ := ⟨⟨0, 0, fun _ => 0⟩, 0⟩
  devsw dev := dev.val == 1
  held := []

theorem booted_image : Booted 0 image where
  tasks := ⟨0, rfl, rfl, rfl, fun slot => by simp only [image]; split <;> rfl⟩
  files := rfl
  pipes _ := rfl
  held := rfl

end Tnix.Syscall
