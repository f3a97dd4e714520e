import Tnix.Syscall.PipeReferences

/-! # The descriptor table of a child

`copy_fs` gives every descriptor of the parent a file object of its own, filled in from the
parent's. The offset is not among what is copied: `falloc` sets it to 0. -/

namespace Tnix.Syscall

open Function Tnix.Fs Program
variable {Task : Type} {mount before middle after : Mount Task} {fd : Fin NFILE}
  {fds : List (Fin NFILE)} {files files' : Fin NFILE → Option (Fin FILE_CNT)}
  {was new : Option (Fin FILE_CNT)} {Target : Type} {look : Handle → Option Target}

def target (look : Handle → Option Target) (mount : Mount Task) (entry : Option (Fin FILE_CNT)) :
    Option Target :=
  entry.bind fun f => look (mount.files f).handle

def uses [DecidableEq Target] (look : Handle → Option Target) (mount : Mount Task)
    (files : Fin NFILE → Option (Fin FILE_CNT)) (fds : List (Fin NFILE)) (x : Target) : Nat :=
  fds.countP fun fd => target look mount (files fd) = some x

def LiveTable (mount : Mount Task) (files : Fin NFILE → Option (Fin FILE_CNT))
    (fds : List (Fin NFILE)) : Prop :=
  ∀ fd ∈ fds, ∀ f, files fd = some f → (mount.files f).inuse = true

/-- The new entry is for a new object, filled in from that of the old one. -/
def CopiedEntry (before after : Mount Task) : Option (Fin FILE_CNT) → Option (Fin FILE_CNT) → Prop
  | none, none => True
  | some f, some f' => after.files f' = ⟨{ (before.files f).obj with off := 0, refc := 1 }, true⟩
  | _, _ => False

structure CopyTurn (before after : Mount Task) (was new : Option (Fin FILE_CNT)) : Prop where
  tasks : after.tasks = before.tasks
  kept : ∀ f, (before.files f).inuse = true → after.files f = before.files f
  entry : CopiedEntry before after was new
  inodes : ∀ slot, (after.icache slot).refc = (before.icache slot).refc +
    if target Handle.inode before was = some slot then 1 else 0
  pipes : ∀ p, (after.pipes p).refc = (before.pipes p).refc +
    Int8.ofNat (if target Handle.pipe before was = some p then 1 else 0)

structure CopiesTable (fds : List (Fin NFILE)) (files : Fin NFILE → Option (Fin FILE_CNT))
    (before : Mount Task) (files' : Fin NFILE → Option (Fin FILE_CNT)) (after : Mount Task) :
    Prop where
  tasks : after.tasks = before.tasks
  kept : ∀ f, (before.files f).inuse = true → after.files f = before.files f
  others : ∀ fd ∉ fds, files' fd = files fd
  entries : ∀ fd ∈ fds, CopiedEntry before after (files fd) (files' fd)
  inodes : ∀ slot, (after.icache slot).refc =
    (before.icache slot).refc + uses Handle.inode before files fds slot
  pipes : ∀ p, (after.pipes p).refc =
    (before.pipes p).refc + Int8.ofNat (uses Handle.pipe before files fds p)

theorem falloc_ensures : Ensures falloc mount fun f final =>
    (mount.files f).inuse = false ∧ ∃ files file, file.off = 0 ∧ file.refc = 1 ∧
      final = { mount with files := update files f ⟨file, true⟩ } ∧
      ∀ g, (mount.files g).inuse = true → files g = mount.files g := by
  simp only [falloc, allocFileSlot, ensures_bind, ensures_get]
  split
  case h_2 => exact ensures_throw.mpr trivial
  case h_1 f found =>
    simp only [ensures_bind, ensures_set, ensures_pure, ensures_getFile, ensures_setFile,
      update_self, update_idem]
    refine ⟨by simpa using List.find?_some found, freshPage mount.files f, _, rfl, rfl, rfl, ?_⟩
    intro g inuse
    rcases freshPage_cases mount.files f g with same | ⟨unused, _⟩
    · exact same
    · rw [inuse] at unused
      cases unused

theorem files_fget (file : File) : Keeps Mount.files (fget file : FsM Task Unit) := by
  intro mount
  rw [fget]
  split <;> simp [iref, pipeget, ensures_bind, ensures_getInode, ensures_setInode,
    ensures_getPipe, ensures_setPipe, ensures_pure, ensures_throw]

theorem uses_cons [DecidableEq Target] (fd : Fin NFILE) (rest : List (Fin NFILE)) (x : Target) :
    uses look mount files (fd :: rest) x =
      uses look mount files rest x + if target look mount (files fd) = some x then 1 else 0 := by
  simp [uses, List.countP_cons]

namespace CopyTurn

variable (turn : CopyTurn before middle (files fd) new) (live : LiveTable before files fds)
  (notIn : fd ∉ fds)
include turn live notIn

theorem uses_rest [DecidableEq Target] (x : Target) :
    uses look middle (update files fd new) fds x = uses look before files fds x := by
  refine List.countP_congr fun other member => ?_
  rw [update_of_ne (ne_of_mem_of_not_mem member notIn)]
  cases isOpen : files other with
  | none => rfl
  | some g => rw [target, target, Option.bind_some, Option.bind_some,
      turn.kept g (live other member g isOpen)]

theorem live_rest : LiveTable middle (update files fd new) fds := by
  intro other member f isOpen
  rw [update_of_ne (ne_of_mem_of_not_mem member notIn)] at isOpen
  have inuse := live other member f isOpen
  rwa [turn.kept f inuse]

theorem copiesTable (copied : CopiesTable fds (update files fd new) middle files' after) :
    CopiesTable (fd :: fds) files before files' after where
  tasks := copied.tasks.trans turn.tasks
  kept f inuse := (copied.kept f (by rwa [turn.kept f inuse])).trans (turn.kept f inuse)
  others other notMember := by
    rw [copied.others other fun member => notMember (List.mem_cons_of_mem _ member),
      update_of_ne (List.ne_of_not_mem_cons notMember)]
  entries other member := by
    by_cases same : other = fd
    · have entry := turn.entry
      rw [same, copied.others fd notIn, update_self]
      cases isWas : files fd <;> cases new <;> simp only [isWas, CopiedEntry] at entry ⊢
      rw [copied.kept _ (by rw [entry]), entry]
    · have inRest := List.mem_of_ne_of_mem same member
      have entry := copied.entries other inRest
      rw [update_of_ne same] at entry
      cases isOpen : files other <;> cases isNew : files' other <;>
        simp only [isOpen, isNew, CopiedEntry] at entry ⊢
      rw [entry, turn.kept _ (live other inRest _ isOpen)]
  inodes slot := by
    rw [copied.inodes, turn.inodes, turn.uses_rest live notIn, uses_cons, Nat.add_assoc,
      Nat.add_comm (ite _ _ _)]
  pipes p := by
    rw [copied.pipes, turn.pipes, turn.uses_rest live notIn, uses_cons, Int8.add_assoc,
      ← Int8.ofNat_add, Nat.add_comm (ite _ _ _)]

end CopyTurn

theorem copyFilesFrom_ensures (live : LiveTable before files fds) (nodup : fds.Nodup) :
    Ensures (copyFilesFrom fds files) before fun files' after =>
      CopiesTable fds files before files' after := by
  induction fds generalizing files before with
  | nil => exact ensures_pure.mpr ⟨rfl, fun _ _ => rfl, fun _ _ => rfl, by simp, by simp [uses],
      by simp [uses]⟩
  | cons fd rest induction =>
    rcases List.nodup_cons.mp nodup with ⟨notIn, nodupRest⟩
    have liveRest : LiveTable before files rest :=
      fun other member => live other (List.mem_cons_of_mem _ member)
    have finish {middle : Mount Task} {new : Option (Fin FILE_CNT)}
        (turn : CopyTurn before middle (files fd) new) :=
      (induction (turn.live_rest liveRest notIn) nodupRest).mono fun _ _ copied =>
        turn.copiesTable liveRest notIn copied
    rw [copyFilesFrom]
    cases isOpen : files fd with
    | none =>
      have turn : CopyTurn before before (files fd) none := by
        rw [isOpen]
        exact ⟨rfl, fun _ _ => rfl, trivial, by simp [target], by simp [target]⟩
      have rested := finish turn
      rwa [← isOpen, update_eq_self] at rested
    | some pf =>
      simp only [ensures_bind, fill]
      refine falloc_ensures.mono ?_
      rintro f _ ⟨free, pages, file, noOff, one, rfl, keeps⟩
      have isLive := live fd List.mem_cons_self pf isOpen
      have notNew (g : Fin FILE_CNT) (inuse : (before.files g).inuse = true) : g ≠ f := by
        rintro rfl
        rw [inuse] at free
        cases free
      simp only [ensures_getFile, ensures_setFile, update_self, update_idem,
        update_of_ne (notNew pf isLive), keeps pf isLive, noOff, one]
      refine ((files_fget _ _).and (objects_fget (before.files pf).handle rfl rfl)).mono ?_
      rintro _ middle ⟨sameFiles, taken⟩
      refine finish ?_
      rw [isOpen]
      refine ⟨(congrArg (·.handles.tasks) taken).trans (Objects.tasks_get _ _), ?_, ?_,
        fun slot => (congrArg (Objects.refc · slot) taken).trans (Objects.refc_get _ _ _),
        fun p => (congrArg (·.handles.pipes p) taken).trans (pipes_get _ _ _)⟩
      · intro g inuse
        simp only [sameFiles, update_of_ne (notNew g inuse), keeps g inuse]
      · simp only [CopiedEntry, sameFiles, update_self]

/-! ## What the child gets -/

/-- The table is a faithful copy of `fs`, and what its descriptors are for counts them. -/
structure Duplicate (before after : Mount Task) (fs table : FsStruct) : Prop where
  cwd : table.cwd = fs.cwd
  fdx : table.fdx = fs.fdx
  null : ∀ fd, table.files fd = none ↔ fs.files fd = none
  files : ∀ fd f f', fs.files fd = some f → table.files fd = some f' →
    after.files f' = ⟨{ (before.files f).obj with refc := 1 }, true⟩
  inodes : ∀ slot, (after.icache slot).refc = (before.icache slot).refc +
    uses Handle.inode before fs.files (List.finRange NFILE) slot + if fs.cwd = slot then 1 else 0
  pipes : ∀ p, (after.pipes p).refc.toInt = (before.pipes p).refc.toInt +
    uses Handle.pipe before fs.files (List.finRange NFILE) p

/-- The child has a duplicate of the parent's table, and the parent has what it had. -/
structure Duplicates (before after : Mount Task) (parent child : Task) (fs : FsStruct) : Prop where
  child : ∃ table, after.tasks child = some table ∧ Duplicate before after fs table
  table : after.tasks parent = some fs
  objects : ∀ fd f, fs.files fd = some f → after.files f = before.files f

def AtStart (mount : Mount Task) (fs : FsStruct) : Prop :=
  ∀ fd f, fs.files fd = some f → (mount.files f).obj.off = 0

/-- The counters of the pipes, which are bytes with a sign, have room for the descriptors. -/
def PipesHaveRoom (mount : Mount Task) (fs : FsStruct) : Prop :=
  ∀ p, (mount.pipes p).refc.toInt + uses Handle.pipe mount fs.files (List.finRange NFILE) p < 128

theorem toInt_add_ofNat {count : Int8} {n : Nat} (few : n ≤ NFILE) :
    (count + Int8.ofNat n).toInt = count.toInt + n ↔ count.toInt + n < 128 := by
  have lower := count.le_toInt
  have upper := (count + Int8.ofNat n).toInt_lt
  simp only [NFILE] at few
  rw [Int8.toInt_add, Int8.toInt_ofNat_of_lt (by omega), Int.bmod_def] at *
  omega

namespace CopiedEntry

theorem null_iff (entry : CopiedEntry before after was new) : new = none ↔ was = none := by
  cases was <;> cases new <;> simp_all [CopiedEntry]

theorem same_iff {f f' : Fin FILE_CNT} (entry : CopiedEntry before after (some f) (some f')) :
    after.files f' = ⟨{ (before.files f).obj with refc := 1 }, true⟩ ↔
      (before.files f).obj.off = 0 := by
  rw [CopiedEntry] at entry
  rw [entry, FileChunk.mk.injEq, File.mk.injEq]
  simp [eq_comm]

end CopiedEntry

theorem CopiesTable.duplicate_iff {fs : FsStruct}
    (copied : CopiesTable (List.finRange NFILE) fs.files { before with
        icache := update before.icache fs.cwd
          { before.icache fs.cwd with refc := (before.icache fs.cwd).refc + 1 } } files after)
    (tasks : Task → Option FsStruct) :
    Duplicate before { after with tasks := tasks } fs { fs with files := files } ↔
      AtStart before fs ∧ PipesHaveRoom before fs := by
  have entries (fd : Fin NFILE) : CopiedEntry before after (fs.files fd) (files fd) :=
    copied.entries fd (List.mem_finRange fd)
  have pipes (p : Fin NPIPE) := @toInt_add_ofNat (before.pipes p).refc
    (uses Handle.pipe before fs.files (List.finRange NFILE) p)
    (List.countP_le_length.trans List.length_finRange.le)
  have counted (p : Fin NPIPE) : (after.pipes p).refc = _ := copied.pipes p
  constructor
  · intro duplicate
    refine ⟨fun fd f isOpen => ?_, fun p => (pipes p).mp (counted p ▸ duplicate.pipes p)⟩
    cases isNew : files fd with
    | none =>
      rw [(entries fd).null_iff, isOpen] at isNew
      cases isNew
    | some f' =>
      have entry := entries fd
      rw [isOpen, isNew] at entry
      exact entry.same_iff.mp (duplicate.files fd f f' isOpen isNew)
  · rintro ⟨atStart, room⟩
    refine ⟨rfl, rfl, fun fd => (entries fd).null_iff, ?_, ?_, fun p => ?_⟩
    · intro fd f f' isOpen isNew
      have entry := entries fd
      rw [isOpen, show files fd = some f' from isNew] at entry
      exact entry.same_iff.mpr (atStart fd f isOpen)
    · intro slot
      simp only [copied.inodes]
      by_cases isCwd : slot = fs.cwd
      · simp only [isCwd, update_self, if_true]
        exact Nat.add_right_comm _ _ _
      · simp only [update_of_ne isCwd, if_neg (Ne.symm isCwd)]
        rfl
    · simp only [counted]
      exact (pipes p).mpr (room p)

/-- `copy_fs` duplicates a table exactly if every file of it is at its start and the pipes
have room for the new references. -/
theorem duplicates_iff [DecidableEq Task] {parent child : Task} (different : child ≠ parent)
    {fs : FsStruct} (running : before.tasks parent = some fs)
    (live : LiveTable before fs.files (List.finRange NFILE))
    (ran : copyFs child parent before = .ok ((), after)) :
    Duplicates before after parent child fs ↔ AtStart before fs ∧ PipesHaveRoom before fs := by
  suffices ensures : Ensures (copyFs child parent) before fun _ after =>
      Duplicates before after parent child fs ↔ AtStart before fs ∧ PipesHaveRoom before fs from
    ensures _ _ ran
  simp only [copyFs, ensures_bind, ensures_getFsStruct, iref, ensures_getInode, ensures_setInode]
  intro _ isFs
  cases running.symm.trans isFs
  refine (copyFilesFrom_ensures (by exact live) (List.nodup_finRange _)).mono ?_
  intro files after copied
  rw [ensures_setFsStruct, ← copied.duplicate_iff]
  constructor
  · rintro ⟨⟨table, isTable, duplicate⟩, _, _⟩
    cases (update_self _ _ _).symm.trans isTable
    exact duplicate
  · intro duplicate
    refine ⟨⟨_, update_self _ _ _, duplicate⟩, ?_, ?_⟩
    · simp only [update_of_ne different.symm, copied.tasks, running]
    · exact fun fd f isOpen => copied.kept f (live fd (List.mem_finRange fd) f isOpen)

def oneFile (off : UInt32) : Mount (Fin NPROC) :=
  { image with
    tasks := update image.tasks 0 (some ⟨0, update (fun _ => none) 0 (some 0), 1⟩)
    files := update image.files 0 ⟨⟨O_RDONLY, .INODE, 1, off, .inode 0⟩, true⟩ }

theorem duplicates_oneFile : ∃ after, copyFs 1 0 (oneFile 0) = .ok ((), after) ∧
    Duplicates (oneFile 0) after 0 1 ⟨0, update (fun _ => none) 0 (some 0), 1⟩ := by
  refine ⟨_, rfl, (duplicates_iff (by decide) rfl ?_ rfl).mpr ⟨?_, ?_⟩⟩
  · show ∀ fd ∈ List.finRange NFILE, _
    decide +kernel
  · show ∀ fd f, _
    decide +kernel
  · show ∀ p, _
    decide +kernel

/-- A child reads from the start what its parent has read already. -/
theorem oneFile_forgets : ((oneFile 5).files 0).obj.off = 5 ∧
    (copyFs 1 0 (oneFile 5)).map (fun outcome => ((outcome.2.tasks 1).bind (·.files 0)).map
      fun f => (outcome.2.files f).obj.off) = .ok (some 0) := by
  decide +kernel

end Tnix.Syscall
