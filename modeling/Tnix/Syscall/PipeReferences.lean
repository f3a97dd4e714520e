import Tnix.Syscall.Changes

/-! # References to pipes

The `refc` of a pipe is an `i8` that counts the file objects in use for the pipe modulo 256. -/

namespace Tnix.Syscall

open Function Tnix.Fs Program
variable {Task : Type} {before middle after : Objects Task} {f : Fin FILE_CNT}
  {handle : Handle}

/-- Every pipe counts the file objects in use that are for it, modulo 256. -/
structure PipesCounted (objects : Objects Task) : Prop where
  unused : objects.Unused
  refc : ∀ p, objects.handles.pipes p = Int8.ofNat (tally (objects.held Handle.pipe) p)

theorem pipes_get (objects : Objects Task) (handle : Handle) (p : Fin NPIPE) :
    (objects.get handle).handles.pipes p =
      objects.handles.pipes p + Int8.ofNat (if handle.pipe = some p then 1 else 0) := by
  have sameBefore : (objects.gained handle.inode).handles = objects.handles :=
    objects.handles_gained _
  rw [Objects.get]
  cases handle.pipe with
  | none =>
    rw [Objects.pipeGained, sameBefore, if_neg (by simp)]
    exact (Int8.add_zero _).symm
  | some held =>
    rw [Objects.pipeGained, Objects.setPipe]
    by_cases same : p = held
    · subst same
      simp
    · simp [update_of_ne same, Ne.symm same]

theorem pipes_put (objects : Objects Task) (handle : Handle) (p : Fin NPIPE) :
    (objects.put handle).handles.pipes p + Int8.ofNat (if handle.pipe = some p then 1 else 0) =
      objects.handles.pipes p := by
  have sameBefore : (objects.dropped handle.inode).handles = objects.handles := by
    cases handle.inode <;> rfl
  rw [Objects.put]
  cases handle.pipe with
  | none =>
    rw [Objects.pipeDropped, sameBefore, if_neg (by simp)]
    exact Int8.add_zero _
  | some held =>
    rw [Objects.pipeDropped, Objects.setPipe]
    by_cases same : p = held
    · subst same
      simp [sameBefore]
    · simp [sameBefore, update_of_ne same, Ne.symm same]

namespace PipesCounted

section
variable (counted : PipesCounted before)
include counted

theorem congr (sameFiles : after.handles.files = before.handles.files)
    (samePipes : after.handles.pipes = before.handles.pipes) : PipesCounted after where
  unused := by
    intro f
    rw [sameFiles]
    exact counted.unused f
  refc p := by
    rw [samePipes, Objects.held_congr Handle.pipe sameFiles]
    exact counted.refc p

theorem get (allocated : before.Allocated middle f handle)
    (inuse : handle.inuse = true) : PipesCounted (middle.get handle) where
  unused := by
    intro g
    rw [Objects.files_get]
    exact allocated.unused inuse counted.unused g
  refc p := by
    rw [pipes_get, allocated.pipes, counted.refc p,
      Objects.held_congr Handle.pipe (middle.files_get handle),
      allocated.tally Handle.pipe p inuse, Int8.ofNat_add]

theorem closed (closed : before.Closed after f) : PipesCounted after where
  unused := closed.unused counted.unused
  refc p := by
    rcases closed with ⟨referred, rfl⟩
    split
    · have updated := Objects.tally_release Handle.pipe p (counted.unused.inuse referred)
      have dropped := pipes_put before (before.handles.files f) p
      rw [counted.refc p, ← updated, Int8.ofNat_add] at dropped
      exact (Int8.add_left_inj _).mp dropped
    · rw [Objects.held_recount Handle.pipe fun _ _ => rfl]
      exact counted.refc p

end

theorem copies {fds : List (Fin NFILE)} {files files' : Fin NFILE → Option (Fin FILE_CNT)}
    (copies : CopiesFrom fds files before files' after) (counted : PipesCounted before) :
    PipesCounted after := by
  induction copies with
  | nil => exact counted
  | skip _ _ induction => exact induction counted
  | copy _ allocated _ induction => exact induction (counted.get allocated rfl)

theorem closes {files : Fin NFILE → Option (Fin FILE_CNT)} {fds : List (Fin NFILE)}
    (closes : ClosesFrom files fds before after) (counted : PipesCounted before) :
    PipesCounted after := by
  induction closes with
  | nil => exact counted
  | skip _ _ induction => exact induction counted
  | close _ closed _ induction => exact induction (counted.closed closed)

theorem few (counted : PipesCounted before) (p : Fin NPIPE) :
    before.handles.pipes p = 0 ↔ tally (before.held Handle.pipe) p = 0 := by
  have bound : tally (before.held Handle.pipe) p ≤ 192 := by
    refine (tally_le_card _ p).trans ?_
    rw [Fintype.card_fin]
    decide
  rw [counted.refc p]
  constructor
  · intro zero
    have isZero : (Int8.ofNat (tally (before.held Handle.pipe) p)).toInt = 0 := by
      rw [zero]
      rfl
    have size : Int8.size = 256 := rfl
    rw [Int8.toInt_ofNat', Int.bmod_def, size] at isZero
    split at isZero <;> omega
  · intro zero
    rw [zero]
    rfl

variable [DecidableEq Task] {task child : Task} {r : Int} {call : Call Task} {good : Prop}

section
variable (counted : PipesCounted before)
include counted

theorem ofInstalled (installed : Installed before after task f r) :
    PipesCounted after := by
  rcases installed with ⟨fsStruct, running, inRange, _, rfl⟩
  exact counted.congr rfl rfl

theorem opened (opened : Opened before after task r) :
    PipesCounted after := by
  rcases opened with ⟨slot, f, type, middle, isInode, allocated, installed⟩
  have gained : PipesCounted (before.gain slot) := counted.congr rfl rfl
  have none : (Handle.new type (.inode slot)).pipe = none := by
    rcases isInode with rfl | rfl <;> rfl
  refine ofInstalled ⟨allocated.unused rfl gained.unused, ?_⟩ installed
  intro p
  rw [allocated.pipes, gained.refc p, allocated.tally Handle.pipe p rfl, none,
    if_neg (by simp), Nat.add_zero]

theorem duplicated (duplicated : Duplicated before after task r) :
    PipesCounted after := by
  rcases duplicated with ⟨fsStruct, fd, f, _, _, atLeast, installed⟩
  have referred : (before.handles.files f).refc ≠ 0 := fun zero => by simp [zero] at atLeast
  refine ofInstalled ⟨Objects.recount_unused counted.unused referred, ?_⟩ installed
  intro p
  rw [Objects.held_recount Handle.pipe fun _ _ => rfl]
  exact counted.refc p

theorem released (released : Released before after task) :
    PipesCounted after := by
  rcases released with ⟨fsStruct, fd, f, middle, _, _, closed, rfl⟩
  exact (counted.closed closed).congr rfl rfl

theorem piped (piped : Piped before after task) :
    PipesCounted after := by
  rcases piped with ⟨p, rf, wf, reader, writer, first, r, r', unused, forReader, forWriter,
    installed, installedToo⟩
  have none := (counted.few p).mp unused
  refine ofInstalled (ofInstalled ⟨forWriter.unused rfl (forReader.unused rfl counted.unused), ?_⟩
    installed) installedToo
  intro other
  have isPipe : (Handle.new .PIPE (.pipe p)).pipe = some p := rfl
  have sameHeld : (before.setPipe p 2).held Handle.pipe = before.held Handle.pipe := rfl
  rw [forWriter.pipes, forReader.pipes, forWriter.tally Handle.pipe other rfl,
    forReader.tally Handle.pipe other rfl, isPipe, sameHeld]
  by_cases same : other = p
  · subst same
    have stored : (before.setPipe other 2).handles.pipes other = 2 := update_self _ _ _
    rw [stored, none]
    simp
  · have kept : (before.setPipe p 2).handles.pipes other = before.handles.pipes other :=
      update_of_ne same _ _
    rw [kept, if_neg (by simpa using Ne.symm same)]
    exact counted.refc other

theorem forked (forked : Forked before after task child) :
    PipesCounted after := by
  rcases forked with ⟨fsStruct, files, middle, _, copies, rfl⟩
  have gained : PipesCounted (before.gain fsStruct.cwd) := counted.congr rfl rfl
  exact (gained.copies copies).congr rfl rfl

theorem exited (exited : Exited before after task) :
    PipesCounted after := by
  rcases exited with ⟨fsStruct, middle, _, closes, rfl⟩
  have dropped : PipesCounted (before.drop fsStruct.cwd) := counted.congr rfl rfl
  exact (dropped.closes closes).congr rfl rfl

theorem changes (changes : Changes task good before call r after) :
    PipesCounted after := by
  cases changes with
  | same => exact counted
  | leaked _ sameHandles =>
    exact counted.congr (congrArg Handles.files sameHandles) (congrArg Handles.pipes sameHandles)
  | opened opened => exact counted.opened opened
  | moved _ moved =>
    rcases moved with ⟨slot, fsStruct, _, rfl⟩
    exact counted.congr rfl rfl
  | duplicated duplicated => exact counted.duplicated duplicated
  | released _ released => exact counted.released released
  | piped _ piped => exact counted.piped piped
  | forked _ forked => exact counted.forked forked
  | exited _ exited => exact counted.exited exited

end
end PipesCounted

/-! ## Runs -/

variable {mount : Mount Task}

def pipeReferences (mount : Mount Task) (p : Fin NPIPE) : Nat :=
  (Finset.univ.filter fun f : Fin FILE_CNT => (mount.files f).inuse = true ∧
    (mount.files f).obj.type = .PIPE ∧ (mount.files f).obj.pointer = .pipe p).card

theorem pipeReferences_eq (p : Fin NPIPE) :
    pipeReferences mount p = tally (mount.objects.held Handle.pipe) p := by
  rw [pipeReferences, tally]
  congr 1
  refine Finset.filter_congr fun f _ => ?_
  have held : mount.objects.held Handle.pipe f = (mount.files f).handle.live Handle.pipe := rfl
  rw [held, Handle.live]
  rcases mount.files f with ⟨⟨mode, type, refc, off, pointer⟩, inuse⟩
  cases inuse <;> cases type <;> cases pointer <;>
    simp [FileChunk.handle, Handle.pipe]

theorem avoids_fput_pipeclose {file : File} (handle : Handle) (sameType : handle.type = file.type)
    (samePointer : handle.pointer = file.pointer)
    (referred : ∀ p, handle.pipe = some p → (mount.pipes p).refc ≠ 0) :
    Avoids (fput file) mount (.panic "pipeclose: refc=0") := by
  rcases file with ⟨mode, type, refc, off, pointer⟩
  rcases handle with ⟨type', refc', pointer', inuse⟩
  cases sameType
  cases samePointer
  cases type <;> cases pointer
  case PIPE.pipe p =>
    change Avoids (pipeclose p) mount _
    rw [pipeclose, avoids_bind]
    refine ⟨(by rintro ⟨⟩), ensures_getPipe.mpr ?_⟩
    rw [if_neg (referred p rfl)]
    rintro ⟨⟩
  all_goals rintro ⟨⟩

theorem PipesCounted.avoids_fclose (counted : PipesCounted mount.objects) (f : Fin FILE_CNT) :
    Avoids (fclose f) mount (.panic "pipeclose: refc=0") := by
  rw [fclose, avoids_bind]
  refine ⟨(by rintro ⟨⟩), ensures_getFile.mpr ?_⟩
  split
  case isTrue => exact fun same => absurd (Except.error.inj same) (by decide)
  case isFalse referred =>
    rw [avoids_bind]
    refine ⟨(by rintro ⟨⟩), ensures_setFile.mpr ?_⟩
    split
    case isFalse => rintro ⟨⟩
    case isTrue =>
      rw [avoids_bind]
      refine ⟨avoids_fput_pipeclose (mount.objects.handles.files f) rfl rfl ?_,
        fun _ _ _ => (by rintro ⟨⟩)⟩
      intro p isFor none
      have inuse := counted.unused.inuse referred
      have holds : mount.objects.held Handle.pipe f = some p := (if_pos inuse).trans isFor
      exact absurd ((counted.few p).mp none) (Nat.ne_of_gt (tally_pos holds))

theorem PipesCounted.avoids_closeFilesFrom (counted : PipesCounted mount.objects)
    (files : Fin NFILE → Option (Fin FILE_CNT)) (fds : List (Fin NFILE)) :
    Avoids (closeFilesFrom files fds) mount (.panic "pipeclose: refc=0") := by
  induction fds generalizing mount with
  | nil => rintro ⟨⟩
  | cons fd rest induction =>
    rw [closeFilesFrom]
    split
    · exact induction counted
    · rw [avoids_bind]
      refine ⟨counted.avoids_fclose _, (objects_fclose _).mono ?_⟩
      exact fun _ _ isClosed => induction (counted.closed isClosed)

variable [DecidableEq Task] {init : Task}

theorem pipesCounted_booted (booted : Booted init mount) : PipesCounted mount.objects := by
  refine ⟨booted.unused, ?_⟩
  intro p
  rw [booted.heldNone, tally_none]
  exact booted.pipes p

/-- In every run a pipe counts the file objects in use that are for it, modulo 256, so its
counter is zero only if there is none. A pipe that is allocated is for no object, and
`pipeclose` never finds the counter at zero. -/
theorem pipes_of_reachable (reached : (machine init).Reachable mount) :
    (∀ p, (mount.pipes p).refc.toInt % 256 = (pipeReferences mount p : Int) % 256 ∧
      ((mount.pipes p).refc = 0 ↔ pipeReferences mount p = 0)) ∧
    (∀ p next, pipealloc mount = .ok (p, next) → pipeReferences mount p = 0) ∧
    (∀ f, Avoids (fclose f) mount (.panic "pipeclose: refc=0")) ∧
    ∀ task, (∀ fd, Avoids (sysClose task fd) mount (.panic "pipeclose: refc=0")) ∧
      Avoids (sysExit task) mount (.panic "pipeclose: refc=0") := by
  have counted : PipesCounted mount.objects := by
    refine reached.invariant (fun mount => PipesCounted mount.objects)
      (fun _ => pipesCounted_booted) ?_
    intro before label after counted _ stepped
    rcases step_cases stepped with ⟨_, r, ran⟩
    exact counted.changes (changes_run label.1 label.2 r after ran)
  have zero (p : Fin NPIPE) : (mount.pipes p).refc = 0 ↔ pipeReferences mount p = 0 := by
    rw [pipeReferences_eq]
    exact counted.few p
  refine ⟨?_, ?_, counted.avoids_fclose, ?_⟩
  · intro p
    refine ⟨?_, zero p⟩
    have refc : (mount.pipes p).refc = _ := counted.refc p
    rw [refc, ← pipeReferences_eq, Int8.toInt_ofNat']
    exact Int.bmod_emod
  · intro p next ran
    exact (zero p).mp (objects_pipealloc p next ran).1
  · intro task
    refine ⟨?_, ?_⟩
    · intro fd
      rw [sysClose, avoids_bind]
      refine ⟨avoids_getFsStruct task _, ensures_getFsStruct.mpr ?_⟩
      intro fsStruct running
      rw [avoids_bind]
      refine ⟨avoids_descriptor fd _, ensures_descriptor ?_⟩
      intro index _
      split
      · rintro ⟨⟩
      · rw [avoids_bind]
        exact ⟨counted.avoids_fclose _, fun _ _ _ => (by rintro ⟨⟩)⟩
    · rw [sysExit, cleanFsSource, avoids_bind, avoids_bind]
      refine ⟨⟨avoids_getFsStruct task _, ensures_getFsStruct.mpr ?_⟩, fun _ _ _ => (by rintro ⟨⟩)⟩
      intro fsStruct running
      rw [avoids_bind]
      refine ⟨(by rintro ⟨⟩), objects_iput.mono ?_⟩
      intro _ put dropped
      rw [avoids_bind]
      refine ⟨PipesCounted.avoids_closeFilesFrom ?_ _ _, fun _ _ _ => (by rintro ⟨⟩)⟩
      rw [dropped]
      exact counted.congr rfl rfl

def pipeRun : List (Fin NPROC × Call (Fin NPROC)) :=
  [(0, .sysPipe), (0, .sysFork (some (1, 2))), (1, .sysClose 0), (0, .sysFork (some (2, 3)))]

theorem pipes_of_pipeRun : ∃ mount, (machine 0).run image pipeRun = some mount ∧
    (mount.pipes 0).refc = 5 ∧
    (mount.pipes 0).refc.toInt % 256 = (pipeReferences mount 0 : Int) % 256 := by
  have ran : ((machine 0).run image pipeRun).any fun mount => (mount.pipes 0).refc == 5 := by
    decide +kernel
  rcases (Option.any_eq_true _ _).mp ran with ⟨mount, reaches, checked⟩
  refine ⟨mount, reaches, by simpa using checked, ?_⟩
  exact ((pipes_of_reachable (.run (.initial booted_image) reaches)).1 0).1

end Tnix.Syscall
