import Tnix.Syscall.Changes

/-! # References to inodes balance

The `refc` of a slot of the inode cache is the number of file objects in use that point to the
slot plus the number of tasks that have it as working directory. -/

namespace Tnix.Syscall

open Function Tnix.Fs Program Objects
variable {Task : Type} {before middle after : Objects Task} {f : Fin FILE_CNT}
  {handle : Handle} {extra : Fin NINODE → Nat}

/-- References to inodes from file objects in use, and `extra` others. -/
structure Counts (extra : Fin NINODE → Nat) (objects : Objects Task) : Prop where
  unused : objects.Unused
  refc : ∀ slot, objects.refc slot = tally (objects.held Handle.inode) slot + extra slot

namespace Counts

theorem congr (counts : Counts extra before) (sameRefc : after.refc = before.refc)
    (sameFiles : after.handles.files = before.handles.files) : Counts extra after where
  unused := by
    intro f
    rw [sameFiles]
    exact counts.unused f
  refc slot := by
    rw [sameRefc, held_congr Handle.inode sameFiles]
    exact counts.refc slot

theorem gain (counts : Counts extra before) (slot : Fin NINODE) :
    Counts (fun other => extra other + if some slot = some other then 1 else 0)
      (before.gain slot) where
  unused := counts.unused
  refc other := by
    have counted := counts.refc other
    have same : (before.gain slot).held Handle.inode = before.held Handle.inode := rfl
    rw [same, Objects.gain]
    by_cases isSlot : other = slot
    · subst isSlot
      simp only [update_self, if_true]
      omega
    · simp only [update_of_ne isSlot, Option.some.injEq, Ne.symm isSlot, if_false]
      exact counted

theorem drop {slot : Fin NINODE}
    (counts : Counts (fun other => extra other + if some slot = some other then 1 else 0) before) :
    Counts extra (before.drop slot) where
  unused := counts.unused
  refc other := by
    have counted := counts.refc other
    have same : (before.drop slot).held Handle.inode = before.held Handle.inode := rfl
    rw [same, Objects.drop]
    by_cases isSlot : other = slot
    · subst isSlot
      simp only [if_true] at counted
      simp only [update_self]
      omega
    · simp only [Option.some.injEq, Ne.symm isSlot, if_false] at counted
      simp only [update_of_ne isSlot]
      exact counted

section
variable (counts : Counts extra before)
include counts

theorem allocated (allocated : before.Allocated middle f handle) (inuse : handle.inuse = true)
    (slot : Fin NINODE) : middle.refc slot + (if handle.inode = some slot then 1 else 0) =
      tally (middle.held Handle.inode) slot + extra slot := by
  rw [allocated.refc, allocated.tally Handle.inode slot inuse, counts.refc slot]
  omega

theorem get (allocated : before.Allocated middle f handle) (inuse : handle.inuse = true) :
    Counts extra (middle.get handle) where
  unused := by
    intro g
    rw [files_get]
    exact allocated.unused inuse counts.unused g
  refc slot := by
    rw [refc_get, held_congr Handle.inode (middle.files_get handle)]
    exact counts.allocated allocated inuse slot

theorem closed (closed : before.Closed after f) : Counts extra after where
  unused := closed.unused counts.unused
  refc slot := by
    rcases closed with ⟨counted, rfl⟩
    have countBefore := counts.refc slot
    split
    · have updated := tally_release Handle.inode slot (counts.unused.inuse counted)
      refine (before.refc_put _ slot).trans ?_
      omega
    · rw [held_recount Handle.inode fun _ _ => rfl]
      exact countBefore

end

theorem copies {fds : List (Fin NFILE)} {files files' : Fin NFILE → Option (Fin FILE_CNT)}
    (copies : CopiesFrom fds files before files' after) (counts : Counts extra before) :
    Counts extra after := by
  induction copies with
  | nil => exact counts
  | skip _ _ induction => exact induction counts
  | copy _ allocated _ induction => exact induction (counts.get allocated rfl)

theorem closes {files : Fin NFILE → Option (Fin FILE_CNT)} {fds : List (Fin NFILE)}
    (closes : ClosesFrom files fds before after) (counts : Counts extra before) :
    Counts extra after := by
  induction closes with
  | nil => exact counts
  | skip _ _ induction => exact induction counts
  | close _ closed _ induction => exact induction (counts.closed closed)

end Counts

/-! ## Working directories -/

variable {task : Task} {call : Call Task} {r : Int} {good : Prop}

def cwds (objects : Objects Task) (task : Task) : Option (Fin NINODE) :=
  (objects.handles.tasks task).map FsStruct.cwd

theorem cwds_running {fsStruct : FsStruct} (running : before.handles.tasks task = some fsStruct) :
    cwds before task = some fsStruct.cwd :=
  congrArg (Option.map FsStruct.cwd) running

theorem cwds_congr (same : after.handles.tasks = before.handles.tasks) :
    cwds after = cwds before := by
  funext other
  rw [cwds, cwds, same]

variable [DecidableEq Task]

theorem cwds_setTask (objects : Objects Task) (task : Task) (fsStruct : Option FsStruct) :
    cwds (objects.setTask task fsStruct) =
      update (cwds objects) task (fsStruct.map FsStruct.cwd) :=
  comp_update (Option.map FsStruct.cwd) objects.handles.tasks task fsStruct

theorem cwd_moveFdi (fsStruct : FsStruct) : (moveFdi fsStruct).cwd = fsStruct.cwd := by
  rw [moveFdi]
  split <;> rfl

theorem Installed.cwds (installed : Installed before after task f r) :
    Syscall.cwds after = Syscall.cwds before := by
  rcases installed with ⟨fsStruct, running, inRange, _, rfl⟩
  rw [cwds_setTask, Option.map_some, cwd_moveFdi, ← cwds_running running, update_eq_self]

theorem Installed.counts (installed : Installed before after task f r)
    (counts : Counts extra before) : Counts extra after := by
  rcases installed with ⟨fsStruct, running, inRange, _, rfl⟩
  exact counts.congr rfl rfl

variable [Fintype Task]

/-- All references to inodes are from file objects and working directories. -/
def Balanced (objects : Objects Task) : Prop := Counts (tally (cwds objects)) objects

section
variable (balanced : Balanced before)
include balanced

theorem Balanced.opened (opened : Opened before after task r) :
    Balanced after := by
  rcases opened with ⟨slot, f, type, middle, isInode, allocated, installed⟩
  have holds : (Handle.new type (.inode slot)).inode = some slot := by
    rcases isInode with rfl | rfl <;> rfl
  have counts : Counts (tally (cwds before)) middle := by
    refine ⟨allocated.unused rfl balanced.unused, ?_⟩
    intro other
    have counted := (balanced.gain slot).allocated allocated rfl other
    rw [holds] at counted
    omega
  have sameCwds : cwds after = cwds before := by
    rw [installed.cwds]
    exact cwds_congr allocated.tasks
  rw [Balanced, sameCwds]
  exact installed.counts counts

theorem Balanced.moved (moved : Moved before after task) :
    Balanced after := by
  rcases moved with ⟨slot, fsStruct, running, rfl⟩
  have sameCwds : cwds (((before.gain slot).drop fsStruct.cwd).setTask task
      (some { fsStruct with cwd := slot })) =
        update (cwds before) task (some slot) := cwds_setTask _ _ _
  have counts : Counts (fun other =>
      tally (update (cwds before) task (some slot)) other +
        if some fsStruct.cwd = some other then 1 else 0) (before.gain slot) := by
    refine ⟨balanced.unused, ?_⟩
    intro other
    have counted := (balanced.gain slot).refc other
    have updated := tally_update (cwds before) task (some slot) other
    rw [cwds_running running] at updated
    omega
  rw [Balanced, sameCwds]
  exact counts.drop.congr rfl rfl

theorem Balanced.duplicated (duplicated : Duplicated before after task r) : Balanced after := by
  rcases duplicated with ⟨fsStruct, fd, f, _, _, atLeast, installed⟩
  rw [Balanced, installed.cwds]
  have referred : (before.handles.files f).refc ≠ 0 := fun zero => by simp [zero] at atLeast
  refine installed.counts ⟨recount_unused balanced.unused referred, ?_⟩
  intro slot
  rw [held_recount Handle.inode fun _ _ => rfl]
  exact balanced.refc slot

theorem Balanced.released (released : Released before after task) :
    Balanced after := by
  rcases released with ⟨fsStruct, fd, f, middle, running, _, closed, rfl⟩
  have counts : Counts (tally (cwds before)) middle := Counts.closed balanced closed
  have sameCwds : cwds (middle.setTask task (some { fsStruct with
      files := update fsStruct.files fd none
      fdx := min fd.val fsStruct.fdx })) = cwds before := by
    rw [cwds_setTask, Option.map_some, cwds_congr closed.tasks, ← cwds_running running,
      update_eq_self]
  rw [Balanced, sameCwds]
  exact counts.congr rfl rfl

theorem Balanced.piped (piped : Piped before after task) :
    Balanced after := by
  rcases piped with
    ⟨p, rf, wf, reader, writer, first, r, r', _, forReader, forWriter, installed, installedToo⟩
  have claimed : Counts (tally (cwds before)) (before.setPipe p 2) :=
    Counts.congr balanced rfl rfl
  have counts : Counts (tally (cwds before)) reader :=
    ⟨forReader.unused rfl claimed.unused, fun slot => claimed.allocated forReader rfl slot⟩
  have countsToo : Counts (tally (cwds before)) writer :=
    ⟨forWriter.unused rfl counts.unused, fun slot => counts.allocated forWriter rfl slot⟩
  have sameCwds : cwds after = cwds before := by
    rw [installedToo.cwds, installed.cwds]
    exact (cwds_congr forWriter.tasks).trans (cwds_congr forReader.tasks)
  rw [Balanced, sameCwds]
  exact installedToo.counts (installed.counts countsToo)

theorem Balanced.forked {child : Task} (free : before.handles.tasks child = none)
    (forked : Forked before after task child) :
    Balanced after := by
  rcases forked with ⟨fsStruct, files, middle, running, copies, rfl⟩
  have sameCwds : cwds (middle.setTask child (some { fsStruct with files := files })) =
      update (cwds before) child (some fsStruct.cwd) := by
    rw [cwds_setTask]
    exact congrArg (update · child _) (cwds_congr copies.tasks)
  have noCwd : cwds before child = none := by
    rw [cwds, free]
    rfl
  have counts : Counts (tally (update (cwds before) child (some fsStruct.cwd)))
      (before.gain fsStruct.cwd) := by
    refine ⟨balanced.unused, ?_⟩
    intro slot
    have counted := (balanced.gain fsStruct.cwd).refc slot
    have updated := tally_update (cwds before) child (some fsStruct.cwd) slot
    rw [noCwd, if_neg (by simp : ¬(none : Option (Fin NINODE)) = some slot)] at updated
    omega
  rw [Balanced, sameCwds]
  exact (counts.copies copies).congr rfl rfl

theorem Balanced.exited (exited : Exited before after task) :
    Balanced after := by
  rcases exited with ⟨fsStruct, middle, running, closes, rfl⟩
  have sameCwds : cwds (middle.setTask task none) =
      update (cwds before) task none := by
    rw [cwds_setTask]
    exact congrArg (update · task _) (cwds_congr closes.tasks)
  have counts : Counts (fun slot => tally (update (cwds before) task none) slot +
      if some fsStruct.cwd = some slot then 1 else 0) before := by
    refine ⟨balanced.unused, ?_⟩
    intro slot
    have counted := balanced.refc slot
    have updated := tally_update (cwds before) task none slot
    rw [cwds_running running, if_neg (by simp : ¬(none : Option (Fin NINODE)) = some slot)] at updated
    omega
  rw [Balanced, sameCwds]
  exact (counts.drop.closes closes).congr rfl rfl

theorem Balanced.changes (isFit : good)
    (free : ∀ child pid, call = .sysFork (some (child, pid)) → before.handles.tasks child = none)
    (changes : Changes task good before call r after) : Balanced after := by
  cases changes with
  | same => exact balanced
  | leaked notFit => exact absurd isFit notFit
  | opened opened => exact balanced.opened opened
  | moved _ moved => exact balanced.moved moved
  | duplicated duplicated => exact balanced.duplicated duplicated
  | released _ released => exact balanced.released released
  | piped _ piped => exact balanced.piped piped
  | forked _ forked => exact balanced.forked (free _ _ rfl) forked
  | exited _ exited => exact balanced.exited exited

end

/-! ## Runs -/

variable {mount : Mount Task} {init : Task}

def fileReferences (mount : Mount Task) (slot : Fin NINODE) : Nat :=
  (Finset.univ.filter fun f : Fin FILE_CNT => (mount.files f).inuse = true ∧
    ((mount.files f).obj.type = .INODE ∨ (mount.files f).obj.type = .DEVICE) ∧
    (mount.files f).obj.pointer = .inode slot).card

def cwdReferences (mount : Mount Task) (slot : Fin NINODE) : Nat :=
  (Finset.univ.filter fun task => (mount.tasks task).map FsStruct.cwd = some slot).card

omit [DecidableEq Task] [Fintype Task] in
theorem fileReferences_eq (slot : Fin NINODE) :
    fileReferences mount slot = tally (mount.objects.held Handle.inode) slot := by
  rw [fileReferences, tally]
  congr 1
  refine Finset.filter_congr fun f _ => ?_
  have held : mount.objects.held Handle.inode f = (mount.files f).handle.live Handle.inode := rfl
  rw [held, Handle.live]
  rcases mount.files f with ⟨⟨mode, type, refc, off, pointer⟩, inuse⟩
  cases inuse <;> cases type <;> cases pointer <;>
    simp [FileChunk.handle, Handle.inode]

omit [DecidableEq Task] in
theorem Balanced.refc_eq (balanced : Balanced mount.objects) (slot : Fin NINODE) :
    (mount.icache slot).refc = fileReferences mount slot + cwdReferences mount slot := by
  rw [fileReferences_eq]
  exact balanced.refc slot

theorem balanced_booted (booted : Booted init mount) : Balanced mount.objects := by
  rcases booted.tasks with ⟨cwd, tasks, _, _, refc⟩
  have onlyInit : cwds mount.objects = update (fun _ => none) init (some cwd) :=
    (congrArg (Option.map FsStruct.cwd ∘ ·) tasks).trans (comp_update _ _ _ _)
  refine ⟨booted.unused, ?_⟩
  intro slot
  have updated := tally_update (fun _ : Task => (none : Option (Fin NINODE))) init
    (some cwd) slot
  rw [tally_none] at updated
  rw [booted.heldNone, tally_none, onlyInit]
  have counted : mount.objects.refc slot = if slot = cwd then 1 else 0 := refc slot
  rw [counted]
  simp only [Option.some.injEq, reduceCtorEq, if_false, eq_comm (a := cwd)] at updated
  omega

theorem Balanced.step {task : Task} {call : Call Task} {next : Mount Task}
    (balanced : Balanced mount.objects) (isFit : fits mount task call = true)
    (stepped : (machine init).step mount (task, call) = some next) : Balanced next.objects := by
  rcases step_cases stepped with ⟨isEnabled, r, ran⟩
  refine balanced.changes isFit ?_ (changes_run task call r next ran)
  intro child pid isFork
  exact free_of_enabled isEnabled isFork

/-- In runs whose calls fit, the references to every inode are those from files and working
directories, and a failing call leaves all of them as they were. -/
theorem references_of_reaches
    (reached : (machine init).Reaches (fun mount label => fits mount label.1 label.2) mount) :
    (∀ slot, (mount.icache slot).refc = fileReferences mount slot + cwdReferences mount slot) ∧
      ∀ (task : Task) (call : Call Task) (r : Int) (next : Mount Task),
        fits mount task call = true → call.run task mount = .ok (r, next) → r < 0 →
        ∀ slot, (next.icache slot).refc = (mount.icache slot).refc := by
  have balanced : Balanced mount.objects := reached.invariant (fun mount => Balanced mount.objects)
    (fun _ => balanced_booted) (fun _ _ _ balanced isFit => balanced.step isFit)
  refine ⟨balanced.refc_eq, ?_⟩
  intro task call r next isFit ran negative slot
  have same := (changes_run task call r next ran).failed isFit negative
  exact congrFun (congrArg Objects.refc same) slot

def callsRun : List (Fin NPROC × Call (Fin NPROC)) :=
  [(0, .sysOpen [slash, 102] O_RDONLY), (0, .sysDup 0), (0, .sysFork (some (1, 2))),
    (1, .sysClose 0), (0, .sysMkdir [slash, 100]), (1, .sysChdir [slash, 100]),
    (0, .sysRmdir [slash, 100]), (0, .sysMknod [slash, 99] 1)]

theorem references_of_callsRun : ∃ mount, (machine 0).run image callsRun = some mount ∧
    (mount.icache 1).refc = 2 ∧
    ∀ slot, (mount.icache slot).refc = fileReferences mount slot + cwdReferences mount slot := by
  have ran : ((machine 0).run image callsRun).any (fun mount => (mount.icache 1).refc == 2) := by
    decide +kernel
  have allows : (machine 0).Allows (fun mount label => fits mount label.1 label.2) image
      callsRun := by
    decide +kernel
  rcases (Option.any_eq_true _ _).mp ran with ⟨mount, reaches, count⟩
  refine ⟨mount, reaches, by simpa using count, ?_⟩
  exact (references_of_reaches (.run (.initial booted_image) allows reaches)).1

/-- `rmdir("/")` fails because the root directory is not empty, and keeps a reference to
the root's inode. -/
theorem rmdir_keeps_reference : ∃ mount : Mount (Fin NPROC), (machine 0).Reachable mount ∧
    (mount.icache 0).refc ≠ fileReferences mount 0 + cwdReferences mount 0 := by
  have ran : ((machine 0).run image [(0, .sysRmdir [slash])]).any fun mount =>
      (mount.icache 0).refc != fileReferences mount 0 + cwdReferences mount 0 := by
    decide +kernel
  rcases (Option.any_eq_true _ _).mp ran with ⟨mount, reaches, differs⟩
  exact ⟨mount, .run (.initial booted_image) reaches, by simpa using differs⟩

end Tnix.Syscall
