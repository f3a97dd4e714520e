import Mathlib.Data.Fintype.Prod
import Tnix.Syscall.Changes

/-! # References to file objects

The `refc` of a file object is the number of descriptors for it over all tasks. -/

namespace Tnix.Syscall

open Function List Tnix.Fs Program
variable {Task : Type} {before middle after : Objects Task} {f : Fin FILE_CNT}
  {handle : Handle} {count : Fin FILE_CNT → Nat}

/-- The file objects have `count` references, and those with none are free. -/
def Counted (count : Fin FILE_CNT → Nat) (objects : Objects Task) : Prop :=
  ∀ f, (objects.handles.files f).refc.toNat = count f ∧
    ((objects.handles.files f).inuse = true ↔ 0 < count f)

def plus (count : Fin FILE_CNT → Nat) (f g : Fin FILE_CNT) : Nat :=
  count g + if some f = some g then 1 else 0

theorem plus_self (count : Fin FILE_CNT → Nat) (f : Fin FILE_CNT) :
    plus count f f = count f + 1 := by
  simp [plus]

theorem plus_of_ne {g : Fin FILE_CNT} (different : g ≠ f) : plus count f g = count g := by
  simp [plus, Ne.symm different]

namespace Counted

section
variable (counted : Counted count before)
include counted

theorem congr (sameFiles : after.handles.files = before.handles.files) : Counted count after := by
  intro f
  rw [sameFiles]
  exact counted f

theorem refc_ne (shared : 0 < count f) : (before.handles.files f).refc ≠ 0 := by
  intro zero
  have known := (counted f).1
  rw [zero] at known
  rw [← known] at shared
  exact absurd shared (Nat.lt_irrefl 0)

theorem ofSetFile {count' : Fin FILE_CNT → Nat}
    (self : handle.refc.toNat = count' f ∧ (handle.inuse = true ↔ 0 < count' f))
    (others : ∀ g, g ≠ f → count' g = count g) : Counted count' (before.setFile f handle) := by
  intro g
  by_cases same : g = f
  · subst same
    have stored : (before.setFile g handle).handles.files g = handle := update_self _ _ _
    rw [stored]
    exact self
  · have kept : (before.setFile f handle).handles.files g = before.handles.files g :=
      update_of_ne same _ _
    rw [kept, others g same]
    exact counted g

theorem allocated (allocated : before.Allocated middle f handle) (one : handle.refc = 1)
    (inuse : handle.inuse = true) : Counted (plus count f) middle := by
  rcases allocated with ⟨files, fresh, rfl⟩
  have free : count f = 0 := by
    have notUsed := (counted f).2
    rw [fresh.free] at notUsed
    simpa using notUsed
  intro g
  by_cases same : g = f
  · subst same
    have stored : update files g handle g = handle := update_self _ _ _
    refine (congrArg (fun stored : Handle => stored.refc.toNat = plus count g g ∧
      (stored.inuse = true ↔ 0 < plus count g g)) stored).mpr ?_
    rw [plus_self, free, one, inuse]
    exact ⟨rfl, by simp⟩
  · have kept : update files f handle g = files g := update_of_ne same _ _
    refine (congrArg (fun stored : Handle => stored.refc.toNat = plus count f g ∧
      (stored.inuse = true ↔ 0 < plus count f g)) kept).mpr ?_
    rw [plus_of_ne same]
    rcases fresh.others g same with unchanged | ⟨notUsed, zeroed⟩
    · rw [unchanged]
      exact counted g
    · have none : count g = 0 := by
        have known := (counted g).2
        rw [notUsed] at known
        simpa using known
      rw [zeroed, none]
      exact ⟨rfl, by simp [FileChunk.handle, FileChunk.zero]⟩

end

theorem closed (counted : Counted (plus count f) before) (closed : before.Closed after f) :
    Counted count after := by
  rcases closed with ⟨_, rfl⟩
  have known := counted f
  rw [plus_self] at known
  have one : (1 : UInt32) ≤ (before.handles.files f).refc := by
    rw [UInt32.le_iff_toNat_le, known.1]
    simp
  have less : ((before.handles.files f).refc - 1).toNat = count f := by
    rw [UInt32.toNat_sub_of_le _ _ one, known.1]
    simp
  split
  · rename_i last
    have none : count f = 0 := by
      rw [← less, last]
      rfl
    refine ofSetFile (counted.congr (Objects.files_put _ _)) ?_ fun g different =>
      (plus_of_ne different).symm
    rw [none]
    exact ⟨rfl, by simp⟩
  · rename_i more
    have isCounted : 0 < count f := by
      rw [← less]
      exact Nat.pos_of_ne_zero fun zero => more (UInt32.toNat_inj.mp zero)
    refine counted.ofSetFile ⟨less, ?_⟩ fun g different => (plus_of_ne different).symm
    exact ⟨fun _ => isCounted, fun _ => known.2.mpr (Nat.succ_pos _)⟩

theorem duplicated (counted : Counted count before) (shared : 0 < count f)
    (few : count f < 2 ^ 32 - 1) :
    Counted (plus count f) (before.setFile f { before.handles.files f with
      refc := (before.handles.files f).refc + 1 }) := by
  have known := counted f
  refine counted.ofSetFile ?_ fun g different => plus_of_ne different
  rw [plus_self]
  refine ⟨?_, fun _ => Nat.succ_pos _, fun _ => known.2.mpr shared⟩
  rw [UInt32.toNat_add, known.1]
  have oneNat : (1 : UInt32).toNat = 1 := rfl
  rw [oneNat]
  exact Nat.mod_eq_of_lt (by omega)

end Counted

/-! ## Descriptor tables -/

def Ready (fsStruct : FsStruct) : Prop :=
  ∃ inRange : fsStruct.fdx < NFILE, fsStruct.files ⟨fsStruct.fdx, inRange⟩ = none ∧
    ∀ fd : Fin NFILE, fd.val < fsStruct.fdx → fsStruct.files fd ≠ none

def roomy (fsStruct : FsStruct) : Bool := decide (∃ fd, fsStruct.files fd = none)

theorem files_moveFdi (fsStruct : FsStruct) : (moveFdi fsStruct).files = fsStruct.files := by
  rw [moveFdi]
  split <;> rfl

variable {fsStruct : FsStruct} {fd : Fin NFILE} {task : Task} {owner : Task × Fin NFILE}
  {fds : List (Fin NFILE)} {files : Fin NFILE → Option (Fin FILE_CNT)} {mount : Mount Task}

theorem ready_moveFdi (below : ∀ fd : Fin NFILE, fd.val < fsStruct.fdx → fsStruct.files fd ≠ none)
    (isRoomy : roomy fsStruct = true) : Ready (moveFdi fsStruct) := by
  rw [moveFdi]
  split
  case h_1 fd found =>
    rcases find?_eq_some_iff_getElem.mp found with ⟨isFree, index, inList, isFd, earlier⟩
    simp only [decide_eq_true_eq] at isFree
    rw [getElem_finRange] at isFd
    refine ⟨fd.isLt, isFree.2, ?_⟩
    intro other less free
    by_cases isBelow : other.val < fsStruct.fdx
    · exact below other isBelow free
    · have position : other.val < index := by
        rw [← isFd] at less
        simpa using less
      have taken := earlier other.val position
      rw [getElem_finRange] at taken
      simp only [Bool.not_eq_true', decide_eq_false_iff_not] at taken
      exact taken ⟨Nat.not_lt.mp isBelow, by simpa using free⟩
  case h_2 missed =>
    rcases of_decide_eq_true isRoomy with ⟨fd, free⟩
    have notFree := find?_eq_none.mp missed fd (mem_finRange fd)
    simp only [decide_eq_true_eq, not_and] at notFree
    by_cases isBelow : fd.val < fsStruct.fdx
    · exact absurd free (below fd isBelow)
    · exact absurd free (notFree (Nat.not_lt.mp isBelow))

theorem Ready.close (ready : Ready fsStruct) (isOpen : fsStruct.files fd ≠ none) :
    Ready { fsStruct with
      files := update fsStruct.files fd none
      fdx := min fd.val fsStruct.fdx } := by
  rcases ready with ⟨inRange, free, below⟩
  have notFdx : fd.val ≠ fsStruct.fdx := by
    intro same
    apply isOpen
    rw [← free]
    exact congrArg fsStruct.files (Fin.ext same)
  refine ⟨Nat.lt_of_le_of_lt (Nat.min_le_right _ _) inRange, ?_, ?_⟩
  · by_cases less : fd.val < fsStruct.fdx
    · have isFd : (⟨min fd.val fsStruct.fdx, Nat.lt_of_le_of_lt (Nat.min_le_right _ _) inRange⟩ :
          Fin NFILE) = fd := Fin.ext (Nat.min_eq_left (Nat.le_of_lt less))
      exact (congrArg _ isFd).trans (update_self _ _ _)
    · have isFdx : (⟨min fd.val fsStruct.fdx, Nat.lt_of_le_of_lt (Nat.min_le_right _ _) inRange⟩ :
          Fin NFILE) = ⟨fsStruct.fdx, inRange⟩ := Fin.ext (Nat.min_eq_right (Nat.not_lt.mp less))
      refine (congrArg _ isFdx).trans ((update_of_ne ?_ _ _).trans free)
      exact fun same => notFdx (congrArg Fin.val same).symm
  · intro other less
    have notFd : other ≠ fd := by
      rintro rfl
      exact absurd less (Nat.not_lt.mpr (Nat.min_le_left _ _))
    have kept : update fsStruct.files fd none other = fsStruct.files other :=
      update_of_ne notFd _ _
    exact fun isFree => below other (Nat.lt_of_lt_of_le less (Nat.min_le_right _ _))
      (kept.symm.trans isFree)

theorem avoids_fput (file : File) :
    Avoids (fput file) mount (.panic "fclose: ref=0") := by
  rcases file with ⟨mode, type, refc, off, pointer⟩
  cases type <;> cases pointer
  case PIPE.pipe p =>
    change Avoids (pipeclose p) mount _
    rw [pipeclose, avoids_bind]
    refine ⟨(by rintro ⟨⟩), ensures_getPipe.mpr ?_⟩
    split
    · exact fun same => absurd (Except.error.inj same) (by decide)
    · rintro ⟨⟩
  all_goals rintro ⟨⟩

theorem avoids_fclose (counted : (mount.files f).obj.refc ≠ 0) :
    Avoids (fclose f) mount (.panic "fclose: ref=0") := by
  rw [fclose, avoids_bind]
  refine ⟨(by rintro ⟨⟩), ensures_getFile.mpr ?_⟩
  rw [if_neg counted, avoids_bind]
  refine ⟨(by rintro ⟨⟩), ensures_setFile.mpr ?_⟩
  split
  · rw [avoids_bind]
    exact ⟨avoids_fput _, fun _ _ _ => (by rintro ⟨⟩)⟩
  · rintro ⟨⟩

variable [DecidableEq Task]

/-- The file objects behind the descriptors of all tasks. -/
def entries (objects : Objects Task) (owner : Task × Fin NFILE) : Option (Fin FILE_CNT) :=
  (objects.handles.tasks owner.1).bind fun fsStruct => fsStruct.files owner.2

theorem entries_setTask (objects : Objects Task) (task : Task) (fsStruct : Option FsStruct)
    (owner : Task × Fin NFILE) :
    entries (objects.setTask task fsStruct) owner =
      if owner.1 = task then fsStruct.bind fun fsStruct => fsStruct.files owner.2
      else entries objects owner := by
  have stored : (objects.setTask task fsStruct).handles.tasks owner.1 =
      if owner.1 = task then fsStruct else objects.handles.tasks owner.1 :=
    update_apply _ _ _ _
  rw [entries, stored]
  split <;> rfl

theorem entries_setTask_update {changed : FsStruct} {entry : Option (Fin FILE_CNT)}
    (running : before.handles.tasks task = some fsStruct)
    (isChanged : changed.files = update fsStruct.files fd entry) :
    entries (before.setTask task (some changed)) = update (entries before) (task, fd) entry := by
  funext owner
  rw [entries_setTask, update_apply]
  by_cases sameTask : owner.1 = task
  · by_cases sameFd : owner.2 = fd
    · rw [if_pos sameTask, if_pos (Prod.ext sameTask sameFd)]
      simp [isChanged, sameFd]
    · rw [if_pos sameTask, if_neg fun same => sameFd (congrArg Prod.snd same)]
      simp [entries, isChanged, sameTask, running, update_of_ne sameFd]
  · rw [if_neg sameTask, if_neg fun same => sameTask (congrArg Prod.fst same)]

theorem entries_setTask_same (changed : FsStruct)
    (running : before.handles.tasks task = some fsStruct)
    (sameFiles : changed.files = fsStruct.files) :
    entries (before.setTask task (some changed)) = entries before := by
  funext owner
  rw [entries_setTask]
  split
  · rename_i sameTask
    rw [entries, sameTask, running]
    simp [sameFiles]
  · rfl

theorem ready_setTask {changed : Option FsStruct}
    (ready : ∀ task fsStruct, before.handles.tasks task = some fsStruct → Ready fsStruct)
    (readyToo : ∀ fsStruct, changed = some fsStruct → Ready fsStruct) (other : Task)
    (fsStruct : FsStruct)
    (running : (before.setTask task changed).handles.tasks other = some fsStruct) :
    Ready fsStruct := by
  have stored : (before.setTask task changed).handles.tasks other =
      if other = task then changed else before.handles.tasks other :=
    update_apply _ _ _ _
  rw [stored] at running
  split at running
  · exact readyToo fsStruct running
  · exact ready other fsStruct running

/-! ## Copying and closing a table -/

/-- A table of descriptors in place of that of one task, for the descriptors of a list. -/
def withTable (owned : Task × Fin NFILE → Option (Fin FILE_CNT)) (task : Task)
    (fds : List (Fin NFILE)) (files : Fin NFILE → Option (Fin FILE_CNT))
    (owner : Task × Fin NFILE) : Option (Fin FILE_CNT) :=
  if owner.1 = task ∧ owner.2 ∈ fds then files owner.2 else owned owner

variable {owned : Task × Fin NFILE → Option (Fin FILE_CNT)} {task child : Task}

section
variable (files : Fin NFILE → Option (Fin FILE_CNT))

theorem withTable_nil : withTable owned task [] files = owned := by
  funext owner
  exact if_neg fun both => absurd both.2 not_mem_nil

theorem withTable_cons {rest : List (Fin NFILE)} (notIn : fd ∉ rest) :
    withTable owned task (fd :: rest) files =
      withTable (update owned (task, fd) (files fd)) task rest files := by
  funext owner
  rcases owner with ⟨other, index⟩
  simp only [withTable, mem_cons, update_apply, Prod.mk.injEq]
  by_cases sameTask : other = task
  · by_cases sameFd : index = fd
    · subst sameFd
      simp [sameTask, notIn]
    · simp [sameTask, sameFd]
  · simp [sameTask]

end

variable [Fintype Task]

theorem tally_plus (free : owned owner = none) (f : Fin FILE_CNT) :
    tally (update owned owner (some f)) = plus (tally owned) f := by
  funext g
  have updated := tally_update owned owner (some f) g
  rw [free, if_neg (by simp)] at updated
  exact updated

theorem plus_tally (isOwned : owned owner = some f) :
    plus (tally (update owned owner none)) f = tally owned := by
  funext g
  have updated := tally_update owned owner none g
  rw [isOwned, if_neg (by simp : ¬(none : Option (Fin FILE_CNT)) = some g)] at updated
  exact updated

theorem CopiesFrom.counted {files' : Fin NFILE → Option (Fin FILE_CNT)}
    (copies : CopiesFrom fds files before files' after) (nodup : fds.Nodup)
    (free : ∀ fd ∈ fds, owned (child, fd) = none) (counted : Counted (tally owned) before) :
    Counted (tally (withTable owned child fds files')) after ∧
      (∀ fd, files' fd = none ↔ files fd = none) ∧ ∀ fd, fd ∉ fds → files' fd = files fd := by
  induction copies generalizing owned with
  | nil =>
    rw [withTable_nil]
    exact ⟨counted, fun _ => Iff.rfl, fun _ _ => rfl⟩
  | @skip fd rest files files' before after isFree copies induction =>
    rcases nodup_cons.mp nodup with ⟨notIn, nodupRest⟩
    rcases induction nodupRest (fun fd member => free fd (mem_cons_of_mem _ member))
      counted with ⟨countedRest, sameOpen, others⟩
    refine ⟨?_, sameOpen, fun fd notMember => others fd fun member =>
      notMember (mem_cons_of_mem _ member)⟩
    have unchanged : update owned (child, fd) (files' fd) = owned := by
      rw [others fd notIn, isFree, ← free fd mem_cons_self, update_eq_self]
    rw [withTable_cons files' notIn, unchanged]
    exact countedRest
  | @copy fd rest files files' before middle after pf f type pointer isOpen allocated copies
      induction =>
      rcases nodup_cons.mp nodup with ⟨notIn, nodupRest⟩
      have countedCopy : Counted (tally (update owned (child, fd) (some f)))
          (middle.get (.new type pointer)) := by
        rw [tally_plus (free fd mem_cons_self)]
        exact (counted.allocated allocated rfl rfl).congr (Objects.files_get _ _)
      have freeRest : ∀ other ∈ rest,
          update owned (child, fd) (some f) (child, other) = none := by
        intro other member
        have different : (child, other) ≠ (child, fd) := by
          intro same
          cases same
          exact notIn member
        rw [update_of_ne different]
        exact free other (mem_cons_of_mem _ member)
      rcases induction nodupRest freeRest countedCopy with ⟨countedRest, sameOpen, others⟩
      have isCopy : files' fd = some f := (others fd notIn).trans (update_self _ _ _)
      refine ⟨?_, ?_, ?_⟩
      · rw [withTable_cons files' notIn, isCopy]
        exact countedRest
      · intro other
        rw [sameOpen other]
        by_cases same : other = fd
        · subst same
          simp [isOpen]
        · rw [update_of_ne same]
      · intro other notMember
        have different : other ≠ fd := by
          rintro rfl
          exact notMember mem_cons_self
        rw [others other fun member => notMember (mem_cons_of_mem _ member)]
        exact update_of_ne different _ _

theorem ClosesFrom.counted (closes : ClosesFrom files fds before after) (nodup : fds.Nodup)
    (isOwned : ∀ fd ∈ fds, owned (task, fd) = files fd) (counted : Counted (tally owned) before) :
    Counted (tally (withTable owned task fds fun _ => none)) after := by
  induction closes generalizing owned with
  | nil =>
    rw [withTable_nil]
    exact counted
  | @skip fd rest before after isFree closes induction =>
    rcases nodup_cons.mp nodup with ⟨notIn, nodupRest⟩
    have unchanged : update owned (task, fd) none = owned := by
      rw [← isFree, ← isOwned fd mem_cons_self, update_eq_self]
    rw [withTable_cons _ notIn, unchanged]
    exact induction nodupRest (fun fd member => isOwned fd (mem_cons_of_mem _ member))
      counted
  | @close fd rest before middle after f isOpen closed closes induction =>
    rcases nodup_cons.mp nodup with ⟨notIn, nodupRest⟩
    have isIts : owned (task, fd) = some f := (isOwned fd mem_cons_self).trans isOpen
    rw [withTable_cons _ notIn]
    refine induction nodupRest ?_ ?_
    · intro other member
      have different : (task, other) ≠ (task, fd) := by
        intro same
        cases same
        exact notIn member
      rw [update_of_ne different]
      exact isOwned other (mem_cons_of_mem _ member)
    · rw [← plus_tally isIts] at counted
      exact counted.closed closed

/-! ## Steps -/

/-- Every file object has as many references as descriptors, and the tables are ready. -/
structure Shared (objects : Objects Task) : Prop where
  counted : Counted (tally (entries objects)) objects
  ready : ∀ task fsStruct, objects.handles.tasks task = some fsStruct → Ready fsStruct

def Roomy (objects : Objects Task) : Prop :=
  ∀ task fsStruct, objects.handles.tasks task = some fsStruct → roomy fsStruct = true

theorem Shared.ofInstalled {r : Int} (counted : Counted (plus (tally (entries before)) f) before)
    (ready : ∀ task fsStruct, before.handles.tasks task = some fsStruct → Ready fsStruct)
    (installed : Installed before after task f r) (isRoomy : Roomy after) : Shared after := by
  rcases installed with ⟨fsStruct, running, inRange, _, rfl⟩
  rcases ready task fsStruct running with ⟨_, free, below⟩
  have isFree : entries before (task, ⟨fsStruct.fdx, inRange⟩) = none := by
    rw [entries, running]
    exact free
  refine ⟨?_, ready_setTask ready ?_⟩
  · rw [entries_setTask_update running (files_moveFdi _), tally_plus isFree]
    exact counted.congr rfl
  · intro changed isChanged
    have hasRoom := isRoomy task _ (update_self _ _ _)
    rw [roomy, files_moveFdi] at hasRoom
    cases isChanged
    refine ready_moveFdi ?_ hasRoom
    intro fd less isNone
    by_cases same : fd = ⟨fsStruct.fdx, inRange⟩
    · rw [same] at less
      exact absurd less (Nat.lt_irrefl _)
    · have kept : update fsStruct.files ⟨fsStruct.fdx, inRange⟩ (some f) fd =
          fsStruct.files fd := update_of_ne same _ _
      exact below fd less (kept.symm.trans isNone)

section
variable (shared : Shared before)
include shared

theorem Shared.opened {r : Int} (opened : Opened before after task r) (isRoomy : Roomy after) :
    Shared after := by
  rcases opened with ⟨slot, f, type, middle, _, allocated, installed⟩
  have sameEntries : entries middle = entries before := by
    funext owner
    rw [entries, allocated.tasks]
    rfl
  have gained : Counted (tally (entries before)) (before.gain slot) := shared.counted.congr rfl
  refine .ofInstalled ?_ ?_ installed isRoomy
  · rw [sameEntries]
    exact gained.allocated allocated rfl rfl
  · rw [allocated.tasks]
    exact shared.ready

theorem Shared.moved (moved : Moved before after task) :
    Shared after := by
  rcases moved with ⟨slot, fsStruct, running, rfl⟩
  refine ⟨?_, ready_setTask shared.ready ?_⟩
  · have there : ((before.gain slot).drop fsStruct.cwd).handles.tasks task = some fsStruct :=
      running
    rw [entries_setTask_same { fsStruct with cwd := slot } there rfl]
    exact shared.counted.congr rfl
  · intro changed isChanged
    cases isChanged
    exact shared.ready task fsStruct running

theorem Shared.released (released : Released before after task) :
    Shared after := by
  rcases released with ⟨fsStruct, fd, f, middle, running, isOpen, closed, rfl⟩
  have isOwned : entries before (task, fd) = some f := by
    rw [entries, running]
    exact isOpen
  have sameEntries : entries middle = entries before := by
    funext owner
    rw [entries, closed.tasks]
    rfl
  have runningToo : middle.handles.tasks task = some fsStruct := by
    rw [closed.tasks]
    exact running
  refine ⟨?_, ready_setTask ?_ ?_⟩
  · rw [entries_setTask_update runningToo rfl, sameEntries]
    have counted := shared.counted
    rw [← plus_tally isOwned] at counted
    exact (counted.closed closed).congr rfl
  · rw [closed.tasks]
    exact shared.ready
  · intro changed isChanged
    cases isChanged
    refine (shared.ready task fsStruct running).close ?_
    rw [isOpen]
    exact Option.some_ne_none f

theorem Shared.forked (free : before.handles.tasks child = none)
    (forked : Forked before after task child) : Shared after := by
  rcases forked with ⟨fsStruct, files, middle, running, copies, rfl⟩
  have isFree : ∀ fd ∈ List.finRange NFILE, entries before (child, fd) = none := by
    intro fd _
    rw [entries, free]
    rfl
  rcases copies.counted (nodup_finRange NFILE) isFree (shared.counted.congr rfl) with
    ⟨counted, sameOpen, _⟩
  have sameEntries : entries middle = entries before := by
    funext owner
    rw [entries, copies.tasks]
    rfl
  refine ⟨?_, ready_setTask ?_ ?_⟩
  · have table : entries (middle.setTask child (some { fsStruct with files := files })) =
        withTable (entries before) child (List.finRange NFILE) files := by
      funext owner
      rw [entries_setTask, withTable, sameEntries]
      simp only [mem_finRange, and_true]
      rfl
    rw [table]
    exact counted.congr rfl
  · rw [copies.tasks]
    exact shared.ready
  · intro changed isChanged
    cases isChanged
    rcases shared.ready task fsStruct running with ⟨inRange, isNone, below⟩
    exact ⟨inRange, (sameOpen _).mpr isNone, fun fd less noFile =>
      below fd less ((sameOpen fd).mp noFile)⟩

theorem Shared.exited (exited : Exited before after task) :
    Shared after := by
  rcases exited with ⟨fsStruct, middle, running, closes, rfl⟩
  have isOwned : ∀ fd ∈ List.finRange NFILE, entries before (task, fd) = fsStruct.files fd := by
    intro fd _
    rw [entries, running]
    rfl
  have counted := closes.counted (nodup_finRange NFILE) isOwned
    (shared.counted.congr rfl)
  refine ⟨?_, ready_setTask ?_ nofun⟩
  · have table : entries (middle.setTask task none) =
        withTable (entries before) task (List.finRange NFILE) fun _ => none := by
      funext owner
      rw [entries_setTask, withTable, entries, closes.tasks]
      simp only [mem_finRange, and_true]
      rfl
    rw [table]
    exact counted.congr rfl
  · rw [closes.tasks]
    exact shared.ready

end

theorem avoids_closeFilesFrom (nodup : fds.Nodup)
    (isOwned : ∀ fd ∈ fds, owned (task, fd) = files fd)
    (counted : Counted (tally owned) mount.objects) :
    Avoids (closeFilesFrom files fds) mount (.panic "fclose: ref=0") := by
  induction fds generalizing mount owned with
  | nil => rintro ⟨⟩
  | cons fd rest induction =>
    rcases nodup_cons.mp nodup with ⟨notIn, nodupRest⟩
    have ownedRest : ∀ other ∈ rest, owned (task, other) = files other :=
      fun other member => isOwned other (mem_cons_of_mem _ member)
    rw [closeFilesFrom]
    split
    case h_1 => exact induction nodupRest ownedRest counted
    case h_2 f isOpen =>
      have isIts : owned (task, fd) = some f := (isOwned fd mem_cons_self).trans isOpen
      rw [avoids_bind]
      refine ⟨avoids_fclose (counted.refc_ne (tally_pos isIts)), (objects_fclose f).mono ?_⟩
      · intro _ closed isClosed
        have stillOwned : ∀ other ∈ rest,
            update owned (task, fd) none (task, other) = files other := by
          intro other member
          have different : (task, other) ≠ (task, fd) := by
            intro same
            cases same
            exact notIn member
          rw [update_of_ne different]
          exact ownedRest other member
        rw [← plus_tally isIts] at counted
        exact induction nodupRest stillOwned (counted.closed isClosed)

/-! ## Runs -/

section
variable {mount : Mount (Fin NPROC)} {init : Fin NPROC}

omit [DecidableEq Task] [Fintype Task]

theorem tally_lt (owned : Fin NPROC × Fin NFILE → Option (Fin FILE_CNT)) (f : Fin FILE_CNT) :
    tally owned f < 2 ^ 32 - 1 := by
  refine Nat.lt_of_le_of_lt (tally_le_card owned f) ?_
  rw [Fintype.card_prod, Fintype.card_fin, Fintype.card_fin]
  decide

variable {before after : Objects (Fin NPROC)} {task : Fin NPROC}

theorem Shared.duplicated {r : Int} (shared : Shared before)
    (duplicated : Duplicated before after task r) (isRoomy : Roomy after) : Shared after := by
  rcases duplicated with ⟨fsStruct, fd, f, running, isOpen, _, installed⟩
  have isOwned : entries before (task, fd) = some f := by
    rw [entries, running]
    exact isOpen
  exact .ofInstalled (shared.counted.duplicated (tally_pos isOwned) (tally_lt _ f)) shared.ready
    installed isRoomy

def roomyMachine (init : Fin NPROC) : Machine (Mount (Fin NPROC)) (Fin NPROC × Call (Fin NPROC)) where
  Initial := Booted init
  step mount label := ((machine init).step mount label).filter fun next =>
    decide (∀ task, (next.tasks task).all roomy = true)

def Call.isPipe {Task : Type} : Call Task → Bool
  | .sysPipe => true
  | _ => false

def descriptors (mount : Mount (Fin NPROC)) (f : Fin FILE_CNT) : Nat :=
  (Finset.univ.filter fun owner : Fin NPROC × Fin NFILE =>
    ((mount.tasks owner.1).bind fun fsStruct => fsStruct.files owner.2) = some f).card

theorem shared_booted (booted : Booted init mount) : Shared mount.objects := by
  rcases booted.tasks with ⟨cwd, tasks, _⟩
  have running : mount.objects.handles.tasks = _ := tasks
  have noEntries : entries mount.objects = fun _ => none := by
    funext owner
    rw [entries, running]
    by_cases same : owner.1 = init
    · rw [same, update_self]
      rfl
    · rw [update_of_ne same]
      rfl
  refine ⟨?_, ?_⟩
  · intro f
    have zero : mount.objects.handles.files f = FileChunk.zero.handle :=
      congrArg FileChunk.handle (congrFun booted.files f)
    rw [noEntries, tally_none, zero]
    exact ⟨rfl, by simp [FileChunk.handle, FileChunk.zero]⟩
  · intro task fsStruct isRunning
    rw [running] at isRunning
    by_cases same : task = init
    · rw [same, update_self] at isRunning
      cases isRunning
      exact ⟨Nat.zero_lt_succ _, rfl, fun fd less => absurd less (Nat.not_lt_zero _)⟩
    · rw [update_of_ne same] at isRunning
      cases isRunning

theorem Shared.changes {call : Call (Fin NPROC)} {r : Int} {good : Prop} (shared : Shared before)
    (notPipe : call.isPipe = false) (isRoomy : Roomy after)
    (free : ∀ child pid, call = .sysFork (some (child, pid)) → before.handles.tasks child = none)
    (changes : Changes task good before call r after) : Shared after := by
  cases changes with
  | same => exact shared
  | leaked _ sameHandles =>
    have sameEntries : entries after = entries before := by
      funext owner
      rw [entries, sameHandles]
      rfl
    refine ⟨?_, ?_⟩
    · rw [sameEntries]
      exact shared.counted.congr (congrArg Handles.files sameHandles)
    · rw [sameHandles]
      exact shared.ready
  | opened opened => exact shared.opened opened isRoomy
  | moved _ moved => exact shared.moved moved
  | duplicated duplicated => exact shared.duplicated duplicated isRoomy
  | released _ released => exact shared.released released
  | piped => cases notPipe
  | forked _ forked => exact shared.forked (free _ _ rfl) forked
  | exited _ exited => exact shared.exited exited

theorem Shared.step {call : Call (Fin NPROC)} {next : Mount (Fin NPROC)}
    (shared : Shared mount.objects) (notPipe : call.isPipe = false)
    (stepped : (roomyMachine init).step mount (task, call) = some next) :
    Shared next.objects := by
  rcases Option.filter_eq_some_iff.mp stepped with ⟨stepped, hasRoom⟩
  rcases step_cases stepped with ⟨isEnabled, r, ran⟩
  have isRoomy : Roomy next.objects := by
    intro other fsStruct running
    have room := of_decide_eq_true hasRoom other
    have there : next.tasks other = some fsStruct := running
    rw [there] at room
    exact room
  refine shared.changes notPipe isRoomy ?_ (changes_run task call r next ran)
  intro child pid isFork
  exact free_of_enabled isEnabled isFork

/-- In runs without `sys_pipe`, a file object in use has as many references as there are
descriptors for it, at least one; and neither `sys_close` nor `sys_exit` calls `fclose` for
an object that is free, whose count is zero. -/
theorem descriptors_of_reaches
    (reached : (roomyMachine init).Reaches (fun _ label => label.2.isPipe = false) mount) :
    (∀ f, (mount.files f).inuse = true →
      (mount.files f).obj.refc.toNat = descriptors mount f ∧ 0 < descriptors mount f) ∧
    (∀ f, (mount.files f).inuse = false → (mount.files f).obj.refc = 0) ∧
    ∀ task, (∀ fd, Avoids (sysClose task fd) mount (.panic "fclose: ref=0")) ∧
      Avoids (sysExit task) mount (.panic "fclose: ref=0") := by
  have shared : Shared mount.objects := reached.invariant (fun mount => Shared mount.objects)
    (fun _ => shared_booted) (fun _ _ _ shared notPipe => shared.step notPipe)
  have isOwned {task fsStruct} (running : mount.tasks task = some fsStruct) (fd : Fin NFILE) :
      entries mount.objects (task, fd) = fsStruct.files fd := by
    have there : mount.objects.handles.tasks task = some fsStruct := running
    rw [entries, there]
    rfl
  refine ⟨?_, ?_, ?_⟩
  · intro f inuse
    have known := shared.counted f
    exact ⟨known.1, known.2.mp inuse⟩
  · intro f free
    have known := shared.counted f
    have none : tally (entries mount.objects) f = 0 := by
      have notUsed : (mount.objects.handles.files f).inuse = false := free
      rw [notUsed] at known
      simpa using known.2
    rw [none] at known
    exact UInt32.toNat_inj.mp known.1
  · intro task
    refine ⟨?_, ?_⟩
    · intro fd
      rw [sysClose, avoids_bind]
      refine ⟨avoids_getFsStruct task _, ensures_getFsStruct.mpr ?_⟩
      intro fsStruct running
      rw [avoids_bind]
      refine ⟨avoids_descriptor fd _, ensures_descriptor ?_⟩
      intro index _
      split
      case h_1 => rintro ⟨⟩
      case h_2 f isOpen =>
        rw [avoids_bind]
        refine ⟨avoids_fclose ?_, fun _ _ _ => (by rintro ⟨⟩)⟩
        exact shared.counted.refc_ne (tally_pos ((isOwned running index).trans isOpen))
    · rw [sysExit, cleanFsSource, avoids_bind, avoids_bind]
      refine ⟨⟨avoids_getFsStruct task _, ensures_getFsStruct.mpr ?_⟩, fun _ _ _ => (by rintro ⟨⟩)⟩
      intro fsStruct running
      rw [avoids_bind]
      refine ⟨(by rintro ⟨⟩), objects_iput.mono ?_⟩
      intro _ put dropped
      rw [avoids_bind]
      refine ⟨avoids_closeFilesFrom (nodup_finRange NFILE)
        (fun fd _ => isOwned running fd) ?_, fun _ _ _ => (by rintro ⟨⟩)⟩
      rw [dropped]
      exact shared.counted.congr rfl

def shareRun : List (Fin NPROC × Call (Fin NPROC)) :=
  [(0, .sysOpen [slash, 102] O_RDONLY), (0, .sysDup 0), (0, .sysFork (some (1, 2))),
    (1, .sysClose 0), (1, .sysExit)]

theorem descriptors_of_shareRun : ∃ mount, (roomyMachine 0).run image shareRun = some mount ∧
    (mount.files 0).obj.refc.toNat = 2 ∧ (mount.files 0).obj.refc.toNat = descriptors mount 0 := by
  have ran : ((roomyMachine 0).run image shareRun).any fun mount =>
      (mount.files 0).inuse && (mount.files 0).obj.refc.toNat == 2 := by
    decide +kernel
  have allows : (roomyMachine 0).Allows (fun _ label => label.2.isPipe = false) image
      shareRun := by
    decide +kernel
  rcases (Option.any_eq_true _ _).mp ran with ⟨mount, reaches, checked⟩
  simp only [Bool.and_eq_true, beq_iff_eq] at checked
  refine ⟨mount, reaches, checked.2, ?_⟩
  exact ((descriptors_of_reaches (.run (.initial booted_image) allows reaches)).1 0 checked.1).1

/-- After `pipe` the first object has one reference and two descriptors, the second has
one reference and no descriptor; closing both descriptors closes the first object again
after it was freed. -/
theorem pipe_shares_reader :
    (∃ mount, (roomyMachine 0).Reachable mount ∧
      ((mount.files 0).inuse = true ∧ (mount.files 0).obj.refc.toNat ≠ descriptors mount 0) ∧
      (mount.files 1).inuse = true ∧ descriptors mount 1 = 0) ∧
    ∃ mount, (roomyMachine 0).Reachable mount ∧
      ¬Avoids (sysClose (0 : Fin NPROC) 1) mount (.panic "fclose: ref=0") := by
  have piped : ((roomyMachine 0).run image [(0, .sysPipe)]).any fun mount =>
      ((mount.files 0).inuse && (mount.files 0).obj.refc.toNat != descriptors mount 0) &&
        ((mount.files 1).inuse && descriptors mount 1 == 0) := by
    decide +kernel
  have closed : ((roomyMachine 0).run image [(0, .sysPipe), (0, .sysClose 0)]).any
      fun mount => match sysClose (0 : Fin NPROC) 1 mount with
      | .error fault => fault == .panic "fclose: ref=0"
      | .ok _ => false := by
    decide +kernel
  rcases (Option.any_eq_true _ _).mp piped with ⟨mount, reaches, checked⟩
  rcases (Option.any_eq_true _ _).mp closed with ⟨later, reachesLater, stops⟩
  simp only [Bool.and_eq_true, bne_iff_ne, beq_iff_eq] at checked
  refine ⟨⟨mount, .run (.initial booted_image) reaches, checked⟩, later,
    .run (.initial booted_image) reachesLater, ?_⟩
  intro avoids
  split at stops
  · rename_i fault stopped
    exact avoids (stopped.trans (congrArg Except.error (by simpa using stops)))
  · cases stops

end
end Tnix.Syscall
