import Tnix.Syscall.FileReferences

/-! # The descriptor table of a task

`fdx` is the first free descriptor as long as no call takes one from a full table, and no
descriptor behind `fdx` is closed while the table is full. -/

namespace Tnix.Syscall

open Function Tnix.Fs Program Option
variable {Task : Type} [DecidableEq Task] {mount next : Mount Task} {init task : Task}
  {table after : FsStruct}

/-- Whenever an entry is free, `fdx` is the first such entry. -/
def FdxLeast (table : FsStruct) : Prop := (∃ fd, table.files fd = none) → Ready table

/-- The entry at `fdx` is stored, and `fdx` moved. -/
def Stored (table after : FsStruct) (f : Fin FILE_CNT) : Prop :=
  ∃ inRange : table.fdx < NFILE, after = moveFdi { table with
    files := update table.files ⟨table.fdx, inRange⟩ (some f) }

/-- What the calls on descriptors do to the table of their task. -/
inductive TableChange (table : FsStruct) : Call Task → FsStruct → Prop
  | same {call : Call Task} : TableChange table call table
  | opened {path : List UInt8} {mode : Nat} {f : Fin FILE_CNT} {after : FsStruct} :
      Stored table after f → TableChange table (.sysOpen path mode) after
  | duplicated {fd : Int} {f : Fin FILE_CNT} {after : FsStruct} :
      Stored table after f → TableChange table (.sysDup fd) after
  | closed {fd : Fin NFILE} : table.files fd ≠ none →
      TableChange table (.sysClose fd) { table with
        files := update table.files fd none
        fdx := min fd.val table.fdx }
  | piped {rf : Fin FILE_CNT} {first after : FsStruct} :
      Stored table first rf → Stored first after rf → TableChange table .sysPipe after

/-! ## The calls -/

variable {f : Fin FILE_CNT} {call : Call Task}

theorem Installed.stored {before later : Objects Task} {r : Int}
    (installed : Installed before later task f r) (running : before.handles.tasks task =
      some table) :
    ∃ after, later.handles.tasks task = some after ∧ Stored table after f := by
  rcases installed with ⟨fsStruct, isTable, inRange, _, rfl⟩
  have same : fsStruct = table := Option.some.inj (isTable.symm.trans running)
  subst same
  exact ⟨_, update_self _ _ _, inRange, rfl⟩

/-- The calls of a task that take and give back descriptors. -/
def Call.onTable : Call Task → Bool
  | .sysOpen _ _ => true
  | .sysDup _ => true
  | .sysClose _ => true
  | .sysPipe => true
  | _ => false

theorem tableChange_close {fd : Int} (running : mount.tasks task = some table) :
    Ensures (sysClose task fd) mount fun _ final => ∃ after, final.tasks task = some after ∧
        TableChange table (.sysClose fd : Call Task) after := by
  simp only [sysClose, ensures_bind, ensures_getFsStruct]
  intro fsStruct isTable
  have same : fsStruct = table := Option.some.inj (isTable.symm.trans running)
  subst same
  refine ensures_descriptor ?_
  intro index isIndex
  subst isIndex
  split
  case h_1 => exact ensures_pure.mpr ⟨fsStruct, running, .same⟩
  case h_2 f isOpen =>
    rw [ensures_bind]
    refine (objects_fclose f).mono ?_
    intro _ closed _
    rw [ensures_bind, ensures_setFsStruct, ensures_pure]
    refine ⟨_, update_self _ _ _, .closed ?_⟩
    rw [isOpen]
    exact some_ne_none f

theorem tableChange_run (onTable : call.onTable = true) (running : mount.tasks task = some table) :
    Ensures (call.run task) mount fun _ final =>
      ∃ after, final.tasks task = some after ∧ TableChange table call after := by
  have tableOf : mount.objects.handles.tasks task = some table := running
  cases call with
  | sysOpen path mode =>
    refine (objects_sysOpen task path mode).mono ?_
    intro r final done
    rcases done with ⟨_, same⟩ | opened
    · have kept : final.objects.handles.tasks task = some table := by rw [same, tableOf]
      exact ⟨table, kept, .same⟩
    · rcases opened with ⟨slot, f, type, middle, _, allocated, installed⟩
      have kept : middle.handles.tasks task = some table := by rw [allocated.tasks]; exact tableOf
      rcases installed.stored kept with ⟨after, isAfter, stored⟩
      exact ⟨after, isAfter, .opened stored⟩
  | sysDup fd =>
    refine (objects_sysDup task fd).mono ?_
    intro r final done
    rcases done with ⟨_, same⟩ | duplicated
    · have kept : final.objects.handles.tasks task = some table := by rw [same, tableOf]
      exact ⟨table, kept, .same⟩
    · rcases duplicated with ⟨fsStruct, _, f, _, _, _, installed⟩
      rcases installed.stored tableOf with ⟨after, isAfter, stored⟩
      exact ⟨after, isAfter, .duplicated stored⟩
  | sysClose fd => exact tableChange_close running
  | sysPipe =>
    refine (objects_sysPipe task).mono ?_
    rintro r final ⟨_, p, rf, wf, reader, writer, first, r₁, r₂, _, forReader, forWriter,
      installed, installedToo⟩
    have kept : writer.handles.tasks task = some table := by
      rw [forWriter.tasks, forReader.tasks]
      exact tableOf
    rcases installed.stored kept with ⟨middle, isMiddle, stored⟩
    rcases installedToo.stored isMiddle with ⟨after, isAfter, storedToo⟩
    exact ⟨after, isAfter, .piped stored storedToo⟩
  | _ => cases onTable

/-! ## One step -/

/-- A call that may take a descriptor finds a free one, and a call on a full table closes
no descriptor behind `fdx`. -/
def Call.fitsTable (table : FsStruct) : Call Task → Bool
  | .sysOpen _ _ => roomy table
  | .sysDup _ => roomy table
  | .sysPipe => roomy table
  | .sysClose fd => roomy table || decide (fd ≤ table.fdx)
  | _ => false

/-- A descriptor that is open stays the same unless the call closes it. -/
def KeepsOpen (call : Call Task) (table after : FsStruct) : Prop :=
  ∀ (fd : Fin NFILE) (f : Fin FILE_CNT), table.files fd = some f →
    after.files fd = some f ∨ call = .sysClose fd

section
variable (stored : Stored table after f)
include stored

theorem Stored.files : ∃ inRange : table.fdx < NFILE,
      after.files = update table.files ⟨table.fdx, inRange⟩ (some f) := by
  rcases stored with ⟨inRange, rfl⟩
  exact ⟨inRange, files_moveFdi _⟩

theorem Stored.fdxLeast (ready : Ready table) : FdxLeast after := by
  rcases stored with ⟨inRange, rfl⟩
  rcases ready with ⟨_, isFree, below⟩
  intro hasFree
  rw [files_moveFdi] at hasFree
  refine ready_moveFdi ?_ (decide_eq_true hasFree)
  intro fd less
  have notFdx : fd ≠ ⟨table.fdx, inRange⟩ := by
    intro same
    exact Nat.lt_irrefl _ (same ▸ less)
  have kept : update table.files ⟨table.fdx, inRange⟩ (some f) fd = table.files fd :=
    update_of_ne notFdx _ _
  exact fun isFree => below fd less (kept.symm.trans isFree)

theorem Stored.keeps (ready : Ready table) {fd : Fin NFILE}
    {g : Fin FILE_CNT} (isOpen : table.files fd = some g) : after.files fd = some g := by
  rcases stored.files with ⟨inRange, sameFiles⟩
  rcases ready with ⟨_, isFree, _⟩
  rw [sameFiles, update_of_ne, isOpen]
  intro same
  rw [same, isFree] at isOpen
  cases isOpen

theorem Stored.again (isFull : ¬ ∃ fd, after.files fd = none) : after.fdx = table.fdx := by
  rcases stored with ⟨inRange, rfl⟩
  rw [files_moveFdi] at isFull
  rw [moveFdi]
  split
  case h_1 fd found =>
    have isFree := List.find?_some found
    simp only [decide_eq_true_eq] at isFree
    exact absurd ⟨fd, isFree.2⟩ isFull
  case h_2 => rfl

end

theorem close_fdxLeast {fd : Fin NFILE} (least : FdxLeast table) (isOpen : table.files fd ≠ none)
    (fits : roomy table = true ∨ fd.val ≤ table.fdx) :
    FdxLeast { table with files := update table.files fd none, fdx := min fd.val table.fdx } := by
  intro _
  by_cases hasFree : ∃ fd, table.files fd = none
  · exact (least hasFree).close isOpen
  · have atMost : fd.val ≤ table.fdx := by
      rcases fits with isRoomy | atMost
      · exact absurd (of_decide_eq_true isRoomy) hasFree
      · exact atMost
    have isFd : min fd.val table.fdx = fd.val := Nat.min_eq_left atMost
    refine ⟨Nat.lt_of_le_of_lt (Nat.le_of_eq isFd) fd.isLt, ?_, ?_⟩
    · have sameFd : (⟨min fd.val table.fdx, Nat.lt_of_le_of_lt (Nat.le_of_eq isFd) fd.isLt⟩ :
          Fin NFILE) = fd := Fin.ext isFd
      exact (congrArg _ sameFd).trans (update_self _ _ _)
    · intro other less
      have notFd : other ≠ fd := by
        intro same
        exact Nat.lt_irrefl _ (isFd ▸ same ▸ less)
      have kept : update table.files fd none other = table.files other :=
        update_of_ne notFd _ _
      exact fun isFree => hasFree ⟨other, kept.symm.trans isFree⟩

omit [DecidableEq Task] in
theorem TableChange.step (change : TableChange table call after) (least : FdxLeast table)
    (fits : call.fitsTable table = true) :
    FdxLeast after ∧ KeepsOpen call table after := by
  cases change with
  | same => exact ⟨least, fun fd f isOpen => .inl isOpen⟩
  | opened stored | duplicated stored =>
    have ready := least (of_decide_eq_true fits)
    exact ⟨stored.fdxLeast ready, fun fd f isOpen => .inl (stored.keeps ready isOpen)⟩
  | closed isOpen =>
    rename_i fd
    refine ⟨close_fdxLeast least isOpen ?_, ?_⟩
    · simp only [Call.fitsTable, Bool.or_eq_true, decide_eq_true_eq] at fits
      exact fits.imp_right Int.ofNat_le.mp
    · intro other f isOther
      by_cases same : other = fd
      · exact .inr (by rw [same])
      · exact .inl ((update_of_ne same _ _).trans isOther)
  | @piped rf first _ stored storedToo =>
    have ready := least (of_decide_eq_true fits)
    by_cases hasFree : ∃ fd, first.files fd = none
    · have readyFirst := stored.fdxLeast ready hasFree
      refine ⟨storedToo.fdxLeast readyFirst, ?_⟩
      intro fd f isOpen
      exact .inl (storedToo.keeps readyFirst (stored.keeps ready isOpen))
    · -- The second store goes where the first one went.
      have sameFdx := stored.again hasFree
      rcases stored.files with ⟨inRange, firstFiles⟩
      rcases storedToo.files with ⟨inRangeToo, afterFiles⟩
      have sameFiles : after.files = first.files := by
        have samePlace : (⟨first.fdx, inRangeToo⟩ : Fin NFILE) = ⟨table.fdx, inRange⟩ :=
          Fin.ext sameFdx
        rw [afterFiles, samePlace, firstFiles, update_idem]
      refine ⟨?_, ?_⟩
      · intro isFree
        rw [sameFiles] at isFree
        exact absurd isFree hasFree
      · intro fd f isOpen
        rw [sameFiles]
        exact .inl (stored.keeps ready isOpen)

/-! ## Runs -/

def FitsTable (init : Task) (mount : Mount Task) (label : Task × Call Task) : Prop :=
  label.1 = init ∧ (mount.tasks init).any label.2.fitsTable = true

instance (init : Task) (mount : Mount Task) (label : Task × Call Task) :
    Decidable (FitsTable init mount label) := inferInstanceAs (Decidable (_ ∧ _))

omit [DecidableEq Task] in
theorem onTable_of_fitsTable (fits : call.fitsTable table = true) :
    call.onTable = true := by
  cases call <;> first | rfl | cases fits

theorem fdxLeast_step {label : Task × Call Task} (running : mount.tasks init = some table)
    (least : FdxLeast table) (fits : FitsTable init mount label)
    (stepped : (machine init).step mount label = some next) :
    ∃ after, next.tasks init = some after ∧ FdxLeast after ∧ KeepsOpen label.2 table after := by
  rcases label with ⟨task, call⟩
  rcases fits with ⟨isInit, fits⟩
  rw [running, any_some] at fits
  cases isInit
  rcases step_cases stepped with ⟨_, r, ran⟩
  rcases tableChange_run (onTable_of_fitsTable fits) running r next ran with
    ⟨after, isAfter, change⟩
  rcases change.step least fits with ⟨leastAfter, keeps⟩
  exact ⟨after, isAfter, leastAfter, keeps⟩

theorem fdxLeast_booted (booted : Booted init mount) :
    ∃ table, mount.tasks init = some table ∧ FdxLeast table := by
  rcases booted.tasks with ⟨cwd, tasks, _⟩
  refine ⟨⟨cwd, fun _ => none, 0⟩, ?_, ?_⟩
  · rw [tasks, update_self]
  · intro _
    have inRange : 0 < NFILE := by decide
    refine ⟨inRange, rfl, ?_⟩
    intro fd less
    exact absurd less (Nat.not_lt_zero _)

/-- In runs of calls that fit the table, `fdx` is the first free descriptor whenever there
is one, and no call changes a descriptor that is open, except the one that it closes. -/
theorem descriptors_kept_of_reaches (reached : (machine init).Reaches (FitsTable init) mount) :
    ∃ table, mount.tasks init = some table ∧ FdxLeast table ∧
      ∀ label next, FitsTable init mount label → (machine init).step mount label = some next →
        ∃ after, next.tasks init = some after ∧ KeepsOpen label.2 table after := by
  have invariant : ∃ table, mount.tasks init = some table ∧ FdxLeast table := by
    refine reached.invariant (fun mount => ∃ table, mount.tasks init = some table ∧ FdxLeast table)
      (fun _ => fdxLeast_booted) ?_
    rintro state later label ⟨table, running, least⟩ fits stepped
    rcases fdxLeast_step running least fits stepped with ⟨after, isAfter, leastAfter, _⟩
    exact ⟨after, isAfter, leastAfter⟩
  rcases invariant with ⟨table, running, least⟩
  refine ⟨table, running, least, ?_⟩
  intro label next fits stepped
  rcases fdxLeast_step running least fits stepped with ⟨after, isAfter, _, keeps⟩
  exact ⟨after, isAfter, keeps⟩

def tableRun : List (Fin NPROC × Call (Fin NPROC)) :=
  [(0, .sysOpen [slash, 102] O_RDONLY), (0, .sysDup 0), (0, .sysClose 0), (0, .sysPipe)]

theorem descriptors_kept_of_tableRun : ∃ mount table, (machine 0).run image tableRun = some mount ∧
    mount.tasks 0 = some table ∧ table.fdx = 3 ∧ FdxLeast table := by
  have ran : ((machine 0).run image tableRun).any fun mount =>
      (mount.tasks 0).any fun table => table.fdx == 3 := by
    decide +kernel
  have allows : (machine 0).Allows (FitsTable 0) image tableRun := by
    decide +kernel
  rcases (any_eq_true _ _).mp ran with ⟨mount, reaches, checked⟩
  rcases descriptors_kept_of_reaches (.run (.initial booted_image) allows reaches) with
    ⟨table, running, least, _⟩
  rw [running, any_some, beq_iff_eq] at checked
  exact ⟨mount, table, reaches, running, checked, least⟩

def fullRun : List (Fin NPROC × Call (Fin NPROC)) :=
  (0, .sysPipe) :: List.replicate 14 (0, .sysDup 0)

def staleRun : List (Fin NPROC × Call (Fin NPROC)) :=
  fullRun ++ [(0, .sysClose 3), (0, .sysDup 0), (0, .sysClose 10)]

/-- With the table full, `pipe` stores its file over the last descriptor. And after a
descriptor is closed behind `fdx`, `fdx` still is a descriptor that is open. -/
theorem pipe_overwrites_descriptor :
    (∃ mount next table after,
      (machine 0).Reaches (fun _ label => label.1 = 0 ∧ label.2.onTable = true) mount ∧
      (machine 0).step mount (0, .sysPipe) = some next ∧
      mount.tasks (0 : Fin NPROC) = some table ∧ next.tasks 0 = some after ∧
      (∀ fd, table.files fd ≠ none) ∧ ¬ KeepsOpen (.sysPipe : Call (Fin NPROC)) table after) ∧
    ∃ mount table,
      (machine 0).Reaches (fun _ label => label.1 = 0 ∧ label.2.onTable = true) mount ∧
      mount.tasks (0 : Fin NPROC) = some table ∧ table.files 10 = none ∧ table.fdx = 3 ∧
      table.files 3 ≠ none ∧ ¬ FdxLeast table := by
  have full : ((machine 0).run image fullRun).any fun mount =>
      ((machine 0).step mount (0, .sysPipe)).any fun next =>
        (mount.tasks 0).any fun table => (next.tasks 0).any fun after =>
          decide (∀ fd, table.files fd ≠ none) &&
            decide (table.files 15 = some 0) && decide (after.files 15 = some 2) := by
    decide +kernel
  have stale : ((machine 0).run image staleRun).any fun mount =>
      (mount.tasks 0).any fun table => decide (table.files 10 = none) &&
        decide (table.fdx = 3) && decide (table.files 3 ≠ none) := by
    decide +kernel
  have allowsFull : (machine 0).Allows
      (fun _ label => label.1 = 0 ∧ label.2.onTable = true) image fullRun := by
    decide +kernel
  have allowsStale : (machine 0).Allows
      (fun _ label => label.1 = 0 ∧ label.2.onTable = true) image staleRun := by
    decide +kernel
  constructor
  · rcases (any_eq_true _ _).mp full with ⟨mount, reaches, checked⟩
    rcases (any_eq_true _ _).mp checked with ⟨next, stepped, checked⟩
    rcases (any_eq_true _ _).mp checked with ⟨table, running, checked⟩
    rcases (any_eq_true _ _).mp checked with ⟨after, isAfter, checked⟩
    simp only [Bool.and_eq_true, decide_eq_true_eq] at checked
    refine ⟨mount, next, table, after, .run (.initial booted_image) allowsFull reaches, stepped,
      running, isAfter, checked.1.1, ?_⟩
    intro keeps
    rcases keeps 15 0 checked.1.2 with kept | isClose
    · rw [checked.2] at kept
      exact absurd kept (by decide)
    · cases isClose
  · rcases (any_eq_true _ _).mp stale with ⟨mount, reaches, checked⟩
    rcases (any_eq_true _ _).mp checked with ⟨table, running, checked⟩
    simp only [Bool.and_eq_true, decide_eq_true_eq] at checked
    rcases checked with ⟨⟨isFree, isFdx⟩, isOpen⟩
    refine ⟨mount, table, .run (.initial booted_image) allowsStale reaches, running, isFree, isFdx,
      isOpen, ?_⟩
    intro least
    rcases least ⟨10, isFree⟩ with ⟨inRange, free, _⟩
    have place : (⟨table.fdx, inRange⟩ : Fin NFILE) = 3 := Fin.ext isFdx
    rw [place] at free
    exact isOpen free

end Tnix.Syscall
