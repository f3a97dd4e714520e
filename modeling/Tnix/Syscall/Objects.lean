import Tnix.Foundation.Tally
import Tnix.Fs.Rules

/-! # References to inodes, files and pipes

The reference counts of the inode cache, the file objects, the pipes and the descriptor tables,
with everything else of the state left out. -/

namespace Tnix.Fs

open Function Program
variable {Task : Type}

/-- What a file object refers to and who refers to it. -/
structure Handle where
  type : FileType
  refc : UInt32
  pointer : FilePointer
  inuse : Bool

namespace Handle

def new (type : FileType) (pointer : FilePointer) : Handle := ⟨type, 1, pointer, true⟩

def inode (handle : Handle) : Option (Fin NINODE) :=
  match handle.type, handle.pointer with
  | .INODE, .inode slot => some slot
  | .DEVICE, .inode slot => some slot
  | _, _ => none

def pipe (handle : Handle) : Option (Fin NPIPE) :=
  match handle.type, handle.pointer with
  | .PIPE, .pipe p => some p
  | _, _ => none

def live {Target : Type} (look : Handle → Option Target) (handle : Handle) : Option Target :=
  if handle.inuse then look handle else none

end Handle

def FileChunk.handle (chunk : FileChunk) : Handle :=
  ⟨chunk.obj.type, chunk.obj.refc, chunk.obj.pointer, chunk.inuse⟩

structure Handles (Task : Type) where
  tasks : Task → Option FsStruct
  files : Fin FILE_CNT → Handle
  pipes : Fin NPIPE → Int8
  devsw : Fin NDEV → Bool

structure Objects (Task : Type) where
  refc : Fin NINODE → Nat
  handles : Handles Task

def Mount.objects (mount : Mount Task) : Objects Task where
  refc slot := (mount.icache slot).refc
  handles :=
    { tasks := mount.tasks
      files := fun f => (mount.files f).handle
      pipes := fun p => (mount.pipes p).refc
      devsw := mount.devsw }

theorem blind_objects : Blind (Mount.objects : Mount Task → Objects Task) where
  disk _ _ := rfl
  held _ _ := rfl
  di mount slot di := by
    simp only [Mount.objects, Objects.mk.injEq, and_true]
    funext other
    by_cases same : other = slot
    · subst same
      rw [update_self]
    · rw [update_of_ne same]

namespace Objects

variable (objects : Objects Task)

def gain (slot : Fin NINODE) : Objects Task :=
  { objects with refc := update objects.refc slot (objects.refc slot + 1) }

def drop (slot : Fin NINODE) : Objects Task :=
  { objects with refc := update objects.refc slot (objects.refc slot - 1) }

def gained : Option (Fin NINODE) → Objects Task
  | none => objects
  | some slot => objects.gain slot

def dropped : Option (Fin NINODE) → Objects Task
  | none => objects
  | some slot => objects.drop slot

@[simp] theorem drop_gain (slot : Fin NINODE) : (objects.gain slot).drop slot = objects := by
  simp [gain, drop]

@[simp] theorem handles_gained (found : Option (Fin NINODE)) :
    (objects.gained found).handles = objects.handles := by
  cases found <;> rfl

def setTask [DecidableEq Task] (task : Task) (fsStruct : Option FsStruct) : Objects Task :=
  { objects with handles := { objects.handles with
    tasks := update objects.handles.tasks task fsStruct } }

def setFiles (files : Fin FILE_CNT → Handle) : Objects Task :=
  { objects with handles := { objects.handles with files := files } }

def setPipe (p : Fin NPIPE) (refc : Int8) : Objects Task :=
  { objects with handles := { objects.handles with
    pipes := update objects.handles.pipes p refc } }

def pipeGained : Option (Fin NPIPE) → Objects Task
  | none => objects
  | some p => objects.setPipe p (objects.handles.pipes p + 1)

def pipeDropped : Option (Fin NPIPE) → Objects Task
  | none => objects
  | some p => objects.setPipe p (objects.handles.pipes p - 1)

/-- The objects with one more reference to what a file is for. -/
def get (handle : Handle) : Objects Task := (objects.gained handle.inode).pipeGained handle.pipe

def put (handle : Handle) : Objects Task :=
  (objects.dropped handle.inode).pipeDropped handle.pipe

def setFile (f : Fin FILE_CNT) (handle : Handle) : Objects Task :=
  objects.setFiles (update objects.handles.files f handle)

end Objects

/-! ## The inode cache -/

variable {mount : Mount Task} {slot : Fin NINODE}

theorem objects_setInode (inode : Inode Unit) :
    ({ mount with icache := update mount.icache slot inode }).objects =
      { mount.objects with refc := update mount.objects.refc slot inode.refc } := by
  simp only [Mount.objects, Objects.mk.injEq, and_true]
  exact comp_update Inode.refc mount.icache slot inode

theorem objects_iput : Ensures (iput slot) mount fun _ final =>
    final.objects = mount.objects.drop slot := by
  simp only [iput, ensures_bind, ensures_getInode, ensures_setInode, objects_setInode]
  rfl

theorem objects_iref : Ensures (iref slot) mount fun _ final =>
    final.objects = mount.objects.gain slot := by
  simp only [iref, ensures_bind, ensures_getInode, ensures_setInode, objects_setInode]
  rfl

theorem objects_iget (inum : UInt32) : Ensures (iget inum) mount fun found final =>
    final.objects = mount.objects.gained found := by
  simp only [iget, ensures_bind, ensures_get]
  split
  case h_1 slot found =>
    simp only [ensures_bind, ensures_getInode, ensures_setInode, ensures_pure, objects_setInode]
    rfl
  case h_2 =>
    rw [ensures_bind]
    refine (blind_objects.iexist inum mount).mono ?_
    intro isThere middle same
    split
    case isFalse => exact ensures_pure.mpr same
    case isTrue =>
      simp only [ensures_bind, ensures_get]
      split
      case h_1 => exact ensures_throw.mpr trivial
      case h_2 slot found =>
        simp only [ensures_bind, ensures_getInode, ensures_setInode]
        refine (blind_objects.iread slot _).mono ?_
        intro _ final read
        rw [ensures_pure, read, objects_setInode, same]
        have unused : (middle.icache slot).refc = 0 := by
          simpa using List.find?_some found
        have none : mount.objects.refc slot = 0 := by
          rw [← same]
          exact unused
        simp only [Objects.gained, Objects.gain, none]

/-! ## Lookup -/

theorem objects_findInFrom {objects : Objects Task} (name : List UInt8) (remaining i : Nat)
    (held : mount.objects = objects.gain slot) :
    Ensures (findInFrom slot name remaining i) mount fun found final =>
      final.objects = match found with
        | some found => objects.gained found
        | none => objects.gain slot := by
  induction remaining generalizing i mount with
  | zero => exact ensures_pure.mpr held
  | succ remaining induction =>
    rw [findInFrom, ensures_bind]
    refine (blind_objects.dataBlockGet slot i mount).mono ?_
    intro b fetched same
    split
    · simp only [ensures_bind]
      refine objects_iput.mono ?_
      intro _ put dropped
      refine (objects_iget _).mono ?_
      intro found got gained
      refine (blind_objects.brelse b got).mono ?_
      intro _ final released
      rw [ensures_pure, released, gained, dropped, same, held, Objects.drop_gain]
    · rw [ensures_bind]
      refine (blind_objects.brelse b fetched).mono ?_
      intro _ final released
      exact induction (i + 1) (released.trans (same.trans held))

theorem objects_walkFrom {objects : Objects Task} (fuel : Nat) (path : List UInt8)
    {cur : Option (Fin NINODE)} (held : mount.objects = objects.gained cur) :
    Ensures (walkFrom fuel cur path) mount fun found final =>
      final.objects = objects.gained found := by
  induction fuel generalizing cur path mount with
  | zero => exact ensures_pure.mpr held
  | succ fuel induction =>
    have parses : Keeps Mount.objects (parsePath path : FsM Task _) := keeps_parsePath path
    rw [walkFrom, ensures_bind]
    refine (parses mount).mono ?_
    intro parsed middle same
    split
    · exact ensures_pure.mpr (same.trans held)
    · split
      · exact ensures_throw.mpr trivial
      · rename_i slot
        simp only [ensures_bind, ensures_getInode]
        refine (objects_findInFrom _ _ _ (same.trans held)).mono ?_
        intro found final there
        split at there
        · exact induction _ there
        · simp only [ensures_bind]
          refine objects_iput.mono ?_
          intro _ put dropped
          rw [ensures_pure, dropped, there, Objects.drop_gain]
          rfl

theorem objects_dentryFind (task : Task) (path : List UInt8) :
    Ensures (dentryFind task path) mount fun found final =>
      final.objects = mount.objects.gained found := by
  rw [dentryFind]
  split
  · rw [ensures_bind]
    refine (objects_iget _).mono ?_
    intro cur middle gained
    exact objects_walkFrom _ _ gained
  · simp only [ensures_bind]
    rw [ensures_getFsStruct]
    intro fsStruct there
    rw [ensures_getInode]
    refine (objects_iget _).mono ?_
    intro cur middle gained
    exact objects_walkFrom _ _ gained

/-! ## Pipes and file objects -/

theorem objects_setPipe (p : Fin NPIPE) (entry : PipeEntry) :
    ({ mount with pipes := update mount.pipes p entry }).objects =
      mount.objects.setPipe p entry.refc := by
  simp only [Mount.objects, Objects.setPipe, Objects.mk.injEq, Handles.mk.injEq, true_and, and_true]
  exact comp_update PipeEntry.refc mount.pipes p entry

theorem objects_setChunk (f : Fin FILE_CNT) (chunk : FileChunk) :
    ({ mount with files := update mount.files f chunk }).objects =
      mount.objects.setFile f chunk.handle := by
  simp only [Mount.objects, Objects.setFile, Objects.setFiles, Objects.mk.injEq,
    Handles.mk.injEq, true_and, and_true]
  exact comp_update FileChunk.handle mount.files f chunk

theorem ensures_getPipe {p : Fin NPIPE} {post : PipeEntry → Mount Task → Prop} :
    Ensures (getPipe p) mount post ↔ post (mount.pipes p) mount := by
  simp only [getPipe, ensures_bind, ensures_get, ensures_pure]

variable {post : Unit → Mount Task → Prop} {f : Fin FILE_CNT} {file : File}

theorem ensures_setPipe {p : Fin NPIPE} {entry : PipeEntry} :
    Ensures (setPipe p entry) mount post ↔
      post () { mount with pipes := update mount.pipes p entry } := by
  rw [setPipe, ensures_modify]

theorem ensures_getFile {post : File → Mount Task → Prop} :
    Ensures (getFile f) mount post ↔ post (mount.files f).obj mount := by
  simp only [getFile, ensures_bind, ensures_get, ensures_pure]

theorem ensures_setFile :
    Ensures (setFile f file) mount post ↔ post () { mount with
        files := update mount.files f { mount.files f with obj := file } } := by
  rw [setFile, ensures_modify]

theorem objects_setFile (sameType : file.type = (mount.files f).obj.type)
    (sameRefc : file.refc = (mount.files f).obj.refc)
    (samePointer : file.pointer = (mount.files f).obj.pointer) :
    Ensures (setFile f file) mount fun _ final => final.objects = mount.objects := by
  rw [ensures_setFile, objects_setChunk]
  have same : FileChunk.handle { mount.files f with obj := file } =
      mount.objects.handles.files f := by
    simp only [FileChunk.handle, sameType, sameRefc, samePointer]
    rfl
  simp only [same, Objects.setFile, Objects.setFiles, update_eq_self]

theorem objects_pipealloc : Ensures pipealloc mount fun p final =>
    mount.objects.handles.pipes p = 0 ∧ final.objects = mount.objects.setPipe p 2 := by
  simp only [pipealloc, ensures_bind, ensures_get]
  split
  case h_1 p found =>
    simp only [ensures_bind, ensures_getPipe, ensures_setPipe, ensures_pure, objects_setPipe]
    have unused : (mount.pipes p).refc = 0 := by simpa using List.find?_some found
    exact ⟨unused, trivial⟩
  case h_2 => exact ensures_throw.mpr trivial

theorem objects_pipeclose (p : Fin NPIPE) : Ensures (pipeclose p) mount fun _ final =>
    final.objects = mount.objects.setPipe p (mount.objects.handles.pipes p - 1) := by
  simp only [pipeclose, ensures_bind, ensures_getPipe]
  split
  · exact ensures_throw.mpr trivial
  · rw [ensures_setPipe, objects_setPipe]
    rfl

theorem objects_pipeget (p : Fin NPIPE) : Ensures (pipeget p) mount fun _ final =>
    final.objects = mount.objects.setPipe p (mount.objects.handles.pipes p + 1) := by
  simp only [pipeget, ensures_bind, ensures_getPipe, ensures_setPipe, objects_setPipe]
  rfl

/-- `files` are the handles after a page was allocated for the object `f`, which was not
in use. -/
structure Fresh (before files : Fin FILE_CNT → Handle) (f : Fin FILE_CNT) : Prop where
  free : (before f).inuse = false
  others : ∀ g, g ≠ f → files g = before g ∨
    (before g).inuse = false ∧ files g = FileChunk.zero.handle

/-- The object `f` was allocated and given the handle. -/
def Objects.Allocated (before after : Objects Task) (f : Fin FILE_CNT) (handle : Handle) : Prop :=
  ∃ files, Fresh before.handles.files files f ∧
    after = before.setFiles (update files f handle)

namespace Objects.Allocated

variable {before after : Objects Task} {f : Fin FILE_CNT} {handle : Handle}

theorem files_self (allocated : before.Allocated after f handle) :
    after.handles.files f = handle := by
  rcases allocated with ⟨files, fresh, rfl⟩
  exact update_self _ _ _

theorem setFile (allocated : before.Allocated after f handle) (other : Handle) :
    before.Allocated (after.setFile f other) f other := by
  rcases allocated with ⟨files, fresh, rfl⟩
  refine ⟨files, fresh, ?_⟩
  simp only [Objects.setFile, Objects.setFiles, update_idem]

theorem setFile_before {middle : Objects Task} {g : Fin FILE_CNT} {second : Handle}
    (allocated : before.Allocated middle f handle) (inuse : handle.inuse = true)
    (next : middle.Allocated after g second) (other : Handle) :
    before.Allocated (middle.setFile f other) f other ∧
      (middle.setFile f other).Allocated (after.setFile f other) g second := by
  refine ⟨allocated.setFile other, ?_⟩
  have used : (middle.handles.files f).inuse = true := by
    rw [allocated.files_self]
    exact inuse
  rcases next with ⟨files, fresh, rfl⟩
  have different : f ≠ g := by
    rintro rfl
    rw [fresh.free] at used
    cases used
  refine ⟨update files f other, ⟨?_, ?_⟩, ?_⟩
  · exact (congrArg Handle.inuse (update_of_ne different.symm _ _)).trans fresh.free
  · intro h notNew
    by_cases same : h = f
    · subst same
      have stored : (middle.setFile h other).handles.files h = other :=
        update_self _ _ _
      rw [update_self, stored]
      exact .inl rfl
    · have unchanged : (middle.setFile f other).handles.files h = middle.handles.files h :=
        update_of_ne same _ _
      rw [update_of_ne same, unchanged]
      exact fresh.others h notNew
  · simp only [Objects.setFile, Objects.setFiles]
    rw [update_comm different]

end Objects.Allocated

theorem freshPage_cases (files : Fin FILE_CNT → FileChunk) (f g : Fin FILE_CNT) :
    freshPage files f g = files g ∨ (files g).inuse = false ∧ freshPage files f g = .zero := by
  simp only [freshPage]
  split
  case isTrue => exact .inl rfl
  case isFalse unused =>
    dsimp only
    split
    case isTrue samePage =>
      refine .inr ⟨?_, rfl⟩
      by_contra inuse
      apply unused
      rw [List.any_eq_true]
      exact ⟨g, List.mem_finRange g, by simpa [samePage] using inuse⟩
    case isFalse => exact .inl rfl

theorem objects_falloc : Ensures falloc mount fun f final =>
    ∃ handle : Handle, handle.refc = 1 ∧ handle.inuse = true ∧
      mount.objects.Allocated final.objects f handle := by
  simp only [falloc, allocFileSlot, ensures_bind, ensures_get]
  split
  case h_2 => exact ensures_throw.mpr trivial
  case h_1 f found =>
    simp only [ensures_bind, ensures_set, ensures_pure, ensures_getFile, ensures_setFile,
      objects_setChunk]
    have free : (mount.files f).inuse = false := by
      simpa using List.find?_some found
    let file := (freshPage mount.files f f).obj
    refine ⟨⟨file.type, 1, file.pointer, true⟩, rfl, rfl,
      fun g => (freshPage mount.files f g).handle, ⟨free, ?_⟩, ?_⟩
    · intro g _
      rcases freshPage_cases mount.files f g with same | ⟨unused, zeroed⟩
      · exact .inl (congrArg FileChunk.handle same)
      · exact .inr ⟨unused, congrArg FileChunk.handle zeroed⟩
    · simp only [Mount.objects, Objects.setFile, Objects.setFiles, Objects.mk.injEq,
        Handles.mk.injEq, true_and, and_true, update_self]
      funext g
      by_cases same : g = f
      · subst same
        rw [update_self, update_self]
        rfl
      · rw [update_of_ne same, update_of_ne same, update_of_ne same]

theorem objects_fdup (f : Fin FILE_CNT) : Ensures (fdup f) mount fun _ final =>
    let handle := mount.objects.handles.files f
    1 ≤ handle.refc ∧
      final.objects = mount.objects.setFile f { handle with refc := handle.refc + 1 } := by
  simp only [fdup, ensures_bind, ensures_getFile]
  split
  · exact ensures_throw.mpr trivial
  · rename_i atLeast
    rw [ensures_setFile, objects_setChunk]
    exact ⟨UInt32.not_lt.mp atLeast, rfl⟩

theorem objects_fput (handle : Handle) (sameType : handle.type = file.type)
    (samePointer : handle.pointer = file.pointer) :
    Ensures (fput file) mount fun _ final => final.objects = mount.objects.put handle := by
  rcases file with ⟨mode, type, refc, off, pointer⟩
  rcases handle with ⟨type', refc', pointer', inuse⟩
  cases sameType
  cases samePointer
  cases type <;> cases pointer <;>
    first
    | exact ensures_pure.mpr rfl
    | exact ensures_throw.mpr trivial
    | exact objects_iput
    | exact objects_pipeclose _

/-- One descriptor less for the object `f`; with the last one it is freed, and puts what
it holds. -/
def Objects.Closed (before after : Objects Task) (f : Fin FILE_CNT) : Prop :=
  let handle := before.handles.files f
  handle.refc ≠ 0 ∧ after =
    if handle.refc - 1 = 0 then (before.put handle).setFile f { handle with refc := 0, inuse := false }
    else before.setFile f { handle with refc := handle.refc - 1 }

theorem Objects.put_setFile (objects : Objects Task) (f : Fin FILE_CNT) (handle other : Handle) :
    (objects.setFile f other).put handle = (objects.put handle).setFile f other := by
  cases inode : handle.inode <;> cases pipe : handle.pipe <;>
    simp only [put, inode, pipe, dropped, pipeDropped] <;> rfl

theorem Objects.setFile_setFile (objects : Objects Task) (f : Fin FILE_CNT)
    (handle other : Handle) : (objects.setFile f handle).setFile f other =
      objects.setFile f other := by
  simp only [setFile, setFiles, update_idem]

theorem objects_fclose (f : Fin FILE_CNT) : Ensures (fclose f) mount fun _ final =>
    mount.objects.Closed final.objects f := by
  let handle := mount.objects.handles.files f
  let less := { handle with refc := handle.refc - 1 }
  simp only [fclose, ensures_bind, ensures_getFile]
  split
  case isTrue => exact ensures_throw.mpr trivial
  case isFalse inUse =>
    simp only [ensures_bind, ensures_setFile]
    split
    case isFalse more =>
      refine ensures_pure.mpr ⟨inUse, ?_⟩
      rw [objects_setChunk]
      exact (if_neg more).symm
    case isTrue last =>
      rw [ensures_bind]
      refine (objects_fput handle rfl rfl).mono ?_
      intro _ put sameAs
      rw [objects_setChunk, Objects.put_setFile] at sameAs
      rw [freeFileSlot, ensures_modify]
      refine ⟨inUse, Eq.trans ?_ (if_pos last).symm⟩
      have freed : ({ put.files f with inuse := false } : FileChunk).handle =
          { handle with refc := 0, inuse := false } := by
        have stored : put.objects.handles.files f = less := by
          rw [sameAs]
          exact update_self _ _ _
        calc ({ put.files f with inuse := false } : FileChunk).handle
            = { put.objects.handles.files f with inuse := false } := rfl
          _ = { handle with refc := handle.refc - 1, inuse := false } := by rw [stored]
          _ = { handle with refc := 0, inuse := false } := by rw [show handle.refc - 1 = 0 from last]
      rw [objects_setChunk, freed, sameAs, Objects.setFile_setFile]

/-! ## What the objects in use hold -/

namespace Objects

variable {before after : Objects Task} {f : Fin FILE_CNT} {handle : Handle} {Target : Type}

/-- What `look` finds in each file object that is in use. -/
def held (objects : Objects Task) (look : Handle → Option Target) (f : Fin FILE_CNT) :
    Option Target :=
  (objects.handles.files f).live look

def Unused (objects : Objects Task) : Prop :=
  ∀ f, (objects.handles.files f).inuse = false → (objects.handles.files f).refc = 0

theorem held_congr (look : Handle → Option Target)
    (same : after.handles.files = before.handles.files) : after.held look = before.held look := by
  funext f
  rw [held, held, same]

theorem held_setFile (objects : Objects Task) (look : Handle → Option Target)
    (f : Fin FILE_CNT) (handle : Handle) :
    (objects.setFile f handle).held look = update (objects.held look) f (handle.live look) :=
  comp_update (Handle.live look) objects.handles.files f handle

section
variable (allocated : before.Allocated after f handle)
include allocated

theorem Allocated.held_free (look : Handle → Option Target) : before.held look f = none := by
  rcases allocated with ⟨files, fresh, rfl⟩
  simp [held, Handle.live, fresh.free]

theorem Allocated.held (inuse : handle.inuse = true) (look : Handle → Option Target) :
    after.held look = update (before.held look) f (look handle) := by
  rcases allocated with ⟨files, fresh, rfl⟩
  funext g
  by_cases same : g = f
  · subst same
    rw [update_self]
    refine (congrArg (Handle.live look) (update_self _ _ _)).trans ?_
    exact if_pos inuse
  · rw [update_of_ne same]
    refine (congrArg (Handle.live look) (update_of_ne same _ _)).trans ?_
    rcases fresh.others g same with kept | ⟨free, zeroed⟩
    · rw [kept]
      rfl
    · rw [zeroed, Objects.held]
      simp [Handle.live, free, FileChunk.handle, FileChunk.zero]

theorem Allocated.unused (inuse : handle.inuse = true) (unused : before.Unused) : after.Unused := by
  rcases allocated with ⟨files, fresh, rfl⟩
  intro g free
  by_cases same : g = f
  · subst same
    have stored : (update files g handle g).inuse = false := free
    rw [update_self, inuse] at stored
    cases stored
  · have kept : update files f handle g = files g := update_of_ne same _ _
    refine (congrArg Handle.refc kept).trans ?_
    have freeBefore : (files g).inuse = false := (congrArg Handle.inuse kept).symm.trans free
    rcases fresh.others g same with unchanged | ⟨_, zeroed⟩
    · rw [unchanged] at freeBefore ⊢
      exact unused g freeBefore
    · rw [zeroed]
      rfl

theorem Allocated.refc :
    after.refc = before.refc := by
  rcases allocated with ⟨files, fresh, rfl⟩
  rfl

theorem Allocated.tasks :
    after.handles.tasks = before.handles.tasks := by
  rcases allocated with ⟨files, fresh, rfl⟩
  rfl

theorem Allocated.pipes :
    after.handles.pipes = before.handles.pipes := by
  rcases allocated with ⟨files, fresh, rfl⟩
  rfl

end

theorem setFile_unused (unused : before.Unused) (zero : handle.inuse = false → handle.refc = 0) :
    (before.setFile f handle).Unused := by
  intro g free
  by_cases same : g = f
  · subst same
    have stored : (before.setFile g handle).handles.files g = handle := update_self _ _ _
    rw [stored] at free ⊢
    exact zero free
  · have kept : (before.setFile f handle).handles.files g = before.handles.files g :=
      update_of_ne same _ _
    rw [kept] at free ⊢
    exact unused g free

theorem Unused.inuse (unused : before.Unused) (referred : (before.handles.files f).refc ≠ 0) :
    (before.handles.files f).inuse = true := by
  by_contra free
  exact referred (unused f (by simpa using free))

theorem recount_unused {refc : UInt32} (unused : before.Unused)
    (referred : (before.handles.files f).refc ≠ 0) :
    (before.setFile f { before.handles.files f with refc := refc }).Unused :=
  setFile_unused unused fun free => absurd (unused f free) referred

section
variable (objects : Objects Task)
include objects

variable (handle : Handle)

theorem files_put : (objects.put handle).handles.files = objects.handles.files := by
  cases inode : handle.inode <;> cases pipe : handle.pipe <;>
    simp only [put, inode, pipe, dropped, pipeDropped] <;> rfl

theorem files_get : (objects.get handle).handles.files = objects.handles.files := by
  cases inode : handle.inode <;> cases pipe : handle.pipe <;>
    simp only [get, inode, pipe, gained, pipeGained] <;> rfl

theorem tasks_put : (objects.put handle).handles.tasks = objects.handles.tasks := by
  cases inode : handle.inode <;> cases pipe : handle.pipe <;>
    simp only [put, inode, pipe, dropped, pipeDropped] <;> rfl

theorem tasks_get : (objects.get handle).handles.tasks = objects.handles.tasks := by
  cases inode : handle.inode <;> cases pipe : handle.pipe <;>
    simp only [get, inode, pipe, gained, pipeGained] <;> rfl

theorem refc_get (slot : Fin NINODE) : (objects.get handle).refc slot =
      objects.refc slot + if handle.inode = some slot then 1 else 0 := by
  have refc : (objects.get handle).refc = (objects.gained handle.inode).refc := by
    rw [get]
    cases handle.pipe <;> rfl
  rw [refc]
  cases handle.inode with
  | none => simp [gained]
  | some held =>
    by_cases same : held = slot
    · subst same
      simp [gained, gain]
    · simp [gained, gain, same, update_of_ne (Ne.symm same)]

theorem refc_put (slot : Fin NINODE) : (objects.put handle).refc slot =
      objects.refc slot - if handle.inode = some slot then 1 else 0 := by
  have refc : (objects.put handle).refc = (objects.dropped handle.inode).refc := by
    rw [put]
    cases handle.pipe <;> rfl
  rw [refc]
  cases handle.inode with
  | none => simp [dropped]
  | some held =>
    by_cases same : held = slot
    · subst same
      simp [dropped, drop]
    · simp [dropped, drop, same, update_of_ne (Ne.symm same)]

end

theorem Closed.tasks (closed : before.Closed after f) :
    after.handles.tasks = before.handles.tasks := by
  rcases closed with ⟨_, rfl⟩
  split
  · exact tasks_put _ _
  · rfl

theorem Closed.unused (closed : before.Closed after f) (unused : before.Unused) :
    after.Unused := by
  rcases closed with ⟨counted, rfl⟩
  split
  · refine setFile_unused ?_ fun _ => rfl
    intro g free
    rw [files_put] at free ⊢
    exact unused g free
  · exact recount_unused unused counted

/-! ## Counting what they hold -/

variable (look : Handle → Option Target)

theorem held_recount {refc : UInt32}
    (blind : ∀ handle refc, look { handle with refc := refc } = look handle) :
    (before.setFile f { before.handles.files f with refc := refc }).held look =
      before.held look := by
  rw [held_setFile, Handle.live, blind]
  exact update_eq_self f _

variable [DecidableEq Target] (target : Target)

theorem Allocated.tally (allocated : before.Allocated after f handle)
    (inuse : handle.inuse = true) :
    tally (after.held look) target =
      Tnix.tally (before.held look) target + if look handle = some target then 1 else 0 := by
  have updated := tally_update (before.held look) f (look handle) target
  rw [allocated.held_free look, if_neg (by simp)] at updated
  rw [allocated.held inuse look]
  exact updated

theorem tally_release (inuse : (before.handles.files f).inuse = true) :
    tally (((before.put (before.handles.files f)).setFile f
          ⟨(before.handles.files f).type, 0, (before.handles.files f).pointer, false⟩).held look)
          target + (if look (before.handles.files f) = some target then 1 else 0) =
      tally (before.held look) target := by
  have updated := tally_update (before.held look) f none target
  have holds : before.held look f = look (before.handles.files f) := if_pos inuse
  rw [holds, if_neg (by simp : ¬(none : Option Target) = some target)] at updated
  rw [held_setFile, held_congr look (before.files_put _)]
  exact updated

end Objects
end Tnix.Fs
