import Tnix.Config
import Tnix.Util.String

/-! # The arguments of `sys_exec`

The copies of the path and the option to the buffers of `sys_exec`, and from there to `tname` and
to the stack. The list of vmas, the page table and the entry of a task are one value. -/

namespace Tnix.Exec

open Util
variable {Image : Type}

def bufferSize : Nat := MAX_PATH_LENGTH / 2

def TNAME_SIZE : Nat := 16

/-- The string in a buffer that was zeroed, when bytes were copied there. What follows the buffer
in memory is a string, too. -/
def bufferText (copied behind : List UInt8) : List UInt8 :=
  if copied.length < bufferSize then copied
  else copied ++ behind.drop (copied.length - bufferSize)

/-- `path + off`: what is behind the last slash. -/
def fileName (path : List UInt8) : List UInt8 := (path.reverse.takeWhile (· ≠ 47)).reverse

/-- The strings of the user, what is in memory behind the two buffers, and what `read_elfhdr` and
`load_segment` make of a path. -/
structure Call (Image : Type) where
  path : List UInt8
  option : Option (List UInt8)
  behindPath : List UInt8
  behindOption : List UInt8
  readElfhdr : List UInt8 → Option Image

structure Task (Image : Type) where
  tname : Nat → UInt8
  ustack : Nat
  image : Image

/-- What a call leaves: the value it returns, if the program is not started, the task, whether
`argstr` returned `false`, and the stores to `path`, `tname`, `option` and the stack. -/
structure Outcome (Image : Type) where
  returned : Option Int
  task : Task Image
  rejected : Bool
  path : List Nat
  tname : List (Nat × UInt8)
  option : List Nat
  stack : List Nat

def sysExec (call : Call Image) (task : Task Image) : Outcome Image :=
  let path := (argstr call.path).getD []
  let text := bufferText path call.behindPath
  let rejected := (argstr call.path).isNone
  match call.readElfhdr text with
  | none => ⟨some (-1), task, rejected, List.range path.length, [], [], []⟩
  | some image =>
    let tname := strcpyFrom 0 (fileName text)
    let named := ⟨storeAll tname task.tname, task.ustack, image⟩
    match call.option with
    | none => ⟨none, named, rejected, List.range path.length, tname, [], []⟩
    | some given =>
      let option := (argstr given).getD []
      let opsize := (bufferText option call.behindOption).length + 1
      let ustack := task.ustack - alignUp opsize 16
      ⟨none, { named with ustack := ustack }, rejected || (argstr given).isNone,
        List.range path.length, tname, List.range option.length,
        (List.range opsize).map (ustack + ·)⟩

/-- All stores are where they should be, and a string that was rejected has changed nothing. -/
structure Contained (task : Task Image) (outcome : Outcome Image) : Prop where
  path : ∀ i ∈ outcome.path, i < bufferSize
  option : ∀ i ∈ outcome.option, i < bufferSize
  tname : ∀ store ∈ outcome.tname, store.1 < TNAME_SIZE
  terminated : ∃ i < TNAME_SIZE, outcome.task.tname i = 0
  stack : ∀ address ∈ outcome.stack, USTACK ≤ address ∧ address < USTACK + PGSIZE
  rejected : outcome.rejected = true →
    outcome.returned = some (-1) ∧ outcome.task = task ∧ outcome.stack = []

/-- The strings fit into their buffers, the name into `tname` and the option on the stack; a path
that is too long must not leave a program for the empty path. -/
def Fitting (call : Call Image) (task : Task Image) : Prop :=
  if MAX_PATH_LENGTH ≤ call.path.length then call.readElfhdr [] = none
  else
    call.path.length ≤ bufferSize ∧
      (call.readElfhdr (bufferText call.path call.behindPath) ≠ none →
        (fileName (bufferText call.path call.behindPath)).length < TNAME_SIZE ∧
        ∀ given, call.option = some given → given.length ≤ bufferSize ∧
          USTACK + alignUp ((bufferText given call.behindOption).length + 1) 16 ≤ task.ustack)

variable {call : Call Image} {task : Task Image}

theorem range_below {n limit : Nat} : (∀ i ∈ List.range n, i < limit) ↔ n ≤ limit := by
  simp only [List.mem_range]
  refine ⟨fun below => ?_, fun atMost i inside => Nat.lt_of_lt_of_le inside atMost⟩
  by_contra more
  exact Nat.lt_irrefl limit (below limit (Nat.not_le.mp more))

theorem stack_below {size ustack : Nat} (top : ustack ≤ USTACK + PGSIZE) :
    (∀ address ∈ (List.range (size + 1)).map (ustack - alignUp (size + 1) 16 + ·),
      USTACK ≤ address ∧ address < USTACK + PGSIZE) ↔ USTACK + alignUp (size + 1) 16 ≤ ustack := by
  have rounded : size + 1 ≤ alignUp (size + 1) 16 := by
    simp only [alignUp]
    omega
  have above : 0 < USTACK := by decide
  rw [List.forall_mem_map]
  constructor
  · intro inPage
    have first := (inPage 0 (List.mem_range.mpr (Nat.succ_pos _))).1
    omega
  · intro room i inside
    rw [List.mem_range] at inside
    omega

theorem terminated_strcpy {text : List UInt8} (fits : text.length < TNAME_SIZE)
    (tname : Nat → UInt8) : ∃ i < TNAME_SIZE, storeAll (strcpyFrom 0 text) tname i = 0 := by
  refine ⟨text.length, fits, ?_⟩
  rw [storeAll_strcpyFrom, if_pos (by omega)]
  simp

theorem contained_started {outcome : Outcome Image} {text : List UInt8}
    (accepted : outcome.rejected = false) (stores : outcome.tname = strcpyFrom 0 text)
    (named : outcome.task.tname = storeAll (strcpyFrom 0 text) task.tname) :
    Contained task outcome ↔ (∀ i ∈ outcome.path, i < bufferSize) ∧ text.length < TNAME_SIZE ∧
      (∀ i ∈ outcome.option, i < bufferSize) ∧
      ∀ address ∈ outcome.stack, USTACK ≤ address ∧ address < USTACK + PGSIZE := by
  have name : (∀ store ∈ outcome.tname, store.1 < TNAME_SIZE) ↔ text.length < TNAME_SIZE := by
    rw [stores, strcpyFrom_below, Nat.zero_add]
  constructor
  · intro contained
    exact ⟨contained.path, name.mp contained.tname, contained.option, contained.stack⟩
  · rintro ⟨path, fits, option, stack⟩
    refine ⟨path, option, name.mpr fits, named ▸ terminated_strcpy fits _, stack, ?_⟩
    rw [accepted]
    rintro ⟨⟩

theorem contained_iff (call : Call Image) (task : Task Image)
    (terminated : ∃ i < TNAME_SIZE, task.tname i = 0) (top : task.ustack ≤ USTACK + PGSIZE) :
    Contained task (sysExec call task) ↔ Fitting call task := by
  have started {outcome : Outcome Image} (runs : outcome.returned = none)
      (rejected : outcome.rejected = true) : ¬Contained task outcome := fun contained => by
    cases runs.symm.trans (contained.rejected rejected).1
  rw [Fitting]
  split
  case isTrue long =>
    have isNone : argstr call.path = none := if_pos (Nat.lt_succ_of_le long)
    have empty : bufferText [] call.behindPath = [] := rfl
    rw [sysExec, isNone, Option.getD_none, empty]
    cases isElf : call.readElfhdr [] with
    | none =>
      refine iff_of_true ⟨?_, ?_, ?_, terminated, ?_, fun _ => ⟨rfl, rfl, rfl⟩⟩ rfl
      all_goals intro _ member; cases member
    | some image =>
      refine iff_of_false ?_ (Option.some_ne_none image)
      cases call.option with
      | none => exact started rfl rfl
      | some given => exact started rfl rfl
  case isFalse short =>
    have isPath : argstr call.path = some call.path :=
      if_neg fun long => short (Nat.le_of_lt_succ long)
    rw [sysExec, isPath, Option.getD_some, ← range_below]
    cases isElf : call.readElfhdr (bufferText call.path call.behindPath) with
    | none =>
      refine ⟨fun contained => ⟨contained.path, fun found => absurd rfl found⟩, fun fits => ?_⟩
      refine ⟨fits.1, ?_, ?_, terminated, ?_, fun rejected => by cases rejected⟩
      all_goals intro _ member; cases member
    | some image =>
      simp only [ne_eq, reduceCtorEq, not_false_eq_true, forall_const]
      cases call.option with
      | none =>
        rw [contained_started rfl rfl rfl]
        simp
      | some given =>
        dsimp only
        by_cases long : given.length + 1 > MAX_PATH_LENGTH
        · have isNone : argstr given = none := if_pos long
          refine iff_of_false (started rfl (by rw [isNone]; rfl)) fun fits => ?_
          have := (fits.2.2 given rfl).1
          simp only [bufferSize, MAX_PATH_LENGTH] at long this
          omega
        · have isGiven : argstr given = some given := if_neg long
          rw [isGiven, contained_started rfl rfl rfl]
          simp only [Option.getD_some, range_below, stack_below top, Option.some.injEq, forall_eq']

def plainTask : Task Unit := ⟨fun _ => 0, USTACK + PGSIZE, ()⟩

theorem contained_short :
    Contained plainTask (sysExec ⟨[97], some [98, 99], [], [], fun _ => some ()⟩ plainTask) := by
  refine (contained_iff _ plainTask ⟨0, by decide, rfl⟩ (Nat.le_refl _)).mpr ?_
  rw [Fitting, if_neg (by decide)]
  refine ⟨by decide, fun _ => ⟨by decide, ?_⟩⟩
  rintro given ⟨rfl⟩
  exact ⟨by decide, by decide⟩

/-- An option of 128 bytes is rejected, but the program is started. -/
theorem exec_rejected : ¬Contained plainTask
    (sysExec ⟨[97], some (List.replicate 128 97), [], [], fun _ => some ()⟩ plainTask) :=
  fun contained => by cases (contained.rejected (by decide +kernel)).1

end Tnix.Exec
