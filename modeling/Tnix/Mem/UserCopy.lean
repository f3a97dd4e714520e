import Tnix.Config
import Tnix.Foundation.Program

/-! # Copying to and from the user

Programs here keep the locks that the task holds, so that they can be read off at the moment of
`kill`. -/

namespace Tnix.Mem

/-! ## Locks -/

inductive Lock
  /-- The spinlock of the task itself. -/
  | task
  /-- The spinlock of another task. -/
  | other (index : Nat)
  | pipecache
  | pipe (index : Nat)
  | file
  | inode
  | slot
  | pages
  | tids
  | bcache
  | console
  | tx
  /-- The sleep lock of a buffer, and the reference to the buffer. -/
  | buffer (blockno : UInt32)
  deriving DecidableEq, Repr

/-- How a task stops inside the kernel. -/
inductive Stop
  | panic
  /-- The locks held on entry to `kill` and at its `context_switch`; `none` if `kill`
  does not get there, as it asks for a lock that the task holds. -/
  | killed (entry : List Lock) (switched : Option (List Lock))
  deriving DecidableEq, Repr

abbrev LockM := Program (List Lock) Stop

/-- `spin_get` or `sleep_get`; both panic if the lock is held already. -/
def lockGet (lock : Lock) : LockM Unit := do
  if lock ∈ (← get) then throw .panic
  modify fun held => lock :: held

/-- `spin_put` or `sleep_put`; both panic if the lock is not held. -/
def lockPut (lock : Lock) : LockM Unit := do
  if lock ∉ (← get) then throw .panic
  modify fun held => held.erase lock

/-- A program run under a lock. -/
def locked (lock : Lock) (body : LockM Unit) : LockM Unit := do
  lockGet lock
  body
  lockPut lock

/-! ## The end of a task -/

/-- What `fclose` does with an open file: another descriptor keeps it, or it goes with
the inode or the pipe that it points to. -/
inductive Closing
  | shared
  | inode
  | pipe (index : Nat)
  deriving DecidableEq, Repr

structure Pte where
  r : Bool
  w : Bool
  x : Bool
  u : Bool

/-- What `kill` and the copies read of a task. -/
structure Task where
  /-- The valid entry for the page of each number; the bits of an address that no level of
  the table looks at only make it repeat. -/
  pagetable : Nat → Option Pte
  files : List Closing
  /-- Its pages and its areas of memory. -/
  pages : Nat
  vmas : Nat
  /-- Number of other tasks, all looked at by `wakeup`. -/
  others : Nat

def fclose (closing : Closing) : LockM Unit :=
  match closing with
  | .shared => locked .file (return ())
  | .inode => do
    locked .file (locked .inode (return ()))
    locked .slot (return ())
  | .pipe index => do
    locked .file (locked (.pipe index) (return ()))
    locked .slot (return ())

def repeated (body : LockM Unit) : Nat → LockM Unit
  | 0 => return ()
  | count + 1 => do
    body
    repeated body count

def fcloseAll : List Closing → LockM Unit
  | [] => return ()
  | closing :: rest => do
    fclose closing
    fcloseAll rest

def cleanSource (task : Task) : LockM Unit := do
  locked .inode (return ())
  fcloseAll task.files
  locked .slot (return ())
  repeated (locked .pages (return ())) task.pages
  repeated (locked .slot (return ())) task.vmas
  locked .slot (return ())
  locked .tids (return ())

def wakeup : Nat → LockM Unit
  | 0 => return ()
  | others + 1 => do
    locked (.other others) (return ())
    wakeup others

/-- `kill` up to its `context_switch`. -/
def killUntilSwitch (task : Task) : LockM Unit := do
  cleanSource task
  wakeup task.others
  lockGet .task

def kill (task : Task) : LockM Unit := fun held =>
  match killUntilSwitch task held with
  | .ok (_, switched) => .error (.killed held (some switched))
  | .error _ => .error (.killed held none)

/-! ## The copies -/

/-- `va_to_pa`; `none` is the address 0. -/
def vaToPa (task : Task) (va : Nat) : Option Pte :=
  match task.pagetable (va / PGSIZE) with
  | none => none
  | some pte => if pte.r || pte.w || pte.x then some pte else none

/-- The page of an address is mapped and has the permissions asked for. -/
def fits (task : Task) (permitted : Pte → Bool) (va : Nat) : Bool :=
  (vaToPa task va).any permitted

/-- A loop that treats `pend` bytes in chunks; `done` counts those behind. Each chunk
has at least one byte, so `fuel = pend` is enough. -/
def chunks (size : (done pend : Nat) → Nat) (body : (done len : Nat) → LockM Unit) :
    (fuel done pend : Nat) → LockM Unit
  | 0, _, _ => return ()
  | fuel + 1, done, pend =>
    if pend = 0 then return ()
    else do
      let len := size done pend
      body done len
      chunks size body fuel (done + len) (pend - len)

def copyUser (task : Task) (permitted : Pte → Bool) (user bytes : Nat) : LockM Unit :=
  chunks (fun done pend => min (PGSIZE - (user + done) % PGSIZE) pend)
    (fun done _ => if fits task permitted (user + done) then return () else kill task)
    bytes 0 bytes

def writable (pte : Pte) : Bool := pte.w && pte.u

def readable (pte : Pte) : Bool := pte.r && pte.u

def copyToUser (task : Task) (udst bytes : Nat) : LockM Unit := copyUser task writable udst bytes

def copyFromUser (task : Task) (usrc bytes : Nat) : LockM Unit :=
  copyUser task readable usrc bytes

/-- `argstr` looks at the first page only. -/
def argstr (task : Task) (uaddr : Nat) : LockM Unit :=
  if fits task readable uaddr then return () else kill task

/-! ## Locks that come and go -/

def Leads (held after : List Lock) (program : LockM Unit) : Prop := program held = .ok ((), after)

namespace Leads

variable {held middle after : List Lock} {program : LockM Unit}

theorem skip : Leads held held (return ()) := rfl

variable {lock : Lock}

theorem get (notHeld : lock ∉ held) : Leads held (lock :: held) (lockGet lock) := by
  simp [Leads, lockGet, notHeld, Program.bind_eq, MonadState.get, getThe, MonadStateOf.get,
    StateT.get, pure, Except.pure, modify, modifyGet, MonadStateOf.modifyGet, StateT.modifyGet]

theorem put (isHeld : lock ∈ held) : Leads held (held.erase lock) (lockPut lock) := by
  simp [Leads, lockPut, isHeld, Program.bind_eq, MonadState.get, getThe, MonadStateOf.get,
    StateT.get, pure, Except.pure, modify, modifyGet, MonadStateOf.modifyGet, StateT.modifyGet]

theorem putHead (lock : Lock) : Leads (lock :: held) held (lockPut lock) := by
  have leads := put (List.mem_cons_self (a := lock) (l := held))
  rwa [List.erase_cons_head] at leads

theorem seq {next : LockM Unit} (first : Leads held middle program)
    (second : Leads middle after next) : Leads held after (do program; next) := by
  rw [Leads, Program.bind_eq, first]
  exact second

theorem locked (notHeld : lock ∉ held) (body : Leads (lock :: held) (lock :: held) program) :
    Leads held held (locked lock program) :=
  (get notHeld).seq (body.seq (putHead lock))

theorem repeated (body : Leads held held program) (count : Nat) :
    Leads held held (repeated program count) := by
  induction count with
  | zero => exact skip
  | succ count induction => exact body.seq induction

end Leads

theorem leads_fclose (closing : Closing) : Leads [] [] (fclose closing) := by
  have slot : Leads [] [] (locked .slot (return ())) := .locked (by simp) .skip
  cases closing with
  | shared => exact .locked (by simp) .skip
  | inode => exact .seq (.locked (by simp) (.locked (by simp) .skip)) slot
  | pipe index => exact .seq (.locked (by simp) (.locked (by simp) .skip)) slot

theorem leads_fcloseAll (files : List Closing) : Leads [] [] (fcloseAll files) := by
  induction files with
  | nil => exact .skip
  | cons closing rest induction => exact (leads_fclose closing).seq induction

variable (task : Task)

theorem leads_cleanSource : Leads [] [] (cleanSource task) := by
  have one (lock : Lock) : Leads [] [] (locked lock (return ())) := .locked (by simp) .skip
  exact (one _).seq ((leads_fcloseAll task.files).seq ((one _).seq
    (((one _).repeated _).seq (((one _).repeated _).seq ((one _).seq (one _))))))

variable {held : List Lock} {during : List Lock → Prop}

theorem leads_wakeup (notHeld : ∀ index, .other index ∉ held) (others : Nat) :
    Leads held held (wakeup others) := by
  induction others with
  | zero => exact .skip
  | succ others induction => exact .seq (.locked (notHeld others) .skip) induction

theorem kill_nil : kill task [] = .error (.killed [] (some [.task])) := by
  have switched : Leads [] [.task] (killUntilSwitch task) :=
    (leads_cleanSource task).seq ((leads_wakeup (by simp) task.others).seq (.get (by simp)))
  rw [kill, switched]

theorem kill_eq (held : List Lock) :
    ∃ switched, kill task held = .error (.killed held switched) := by
  rw [kill]
  cases killUntilSwitch task held with
  | error => exact ⟨_, rfl⟩
  | ok => exact ⟨_, rfl⟩

/-! ## Where a copy is killed -/

/-- The bytes from an address on all lie in pages with the permissions. -/
def Accessible (task : Task) (permitted : Pte → Bool) (user bytes : Nat) : Prop :=
  ∀ offset, offset < bytes → fits task permitted (user + offset) = true

variable (permitted : Pte → Bool)

theorem accessible_add (user first second : Nat) : Accessible task permitted user (first + second) ↔
      Accessible task permitted user first ∧ Accessible task permitted (user + first) second := by
  constructor
  · intro all
    refine ⟨fun offset less => all offset (by omega), ?_⟩
    intro offset less
    rw [Nat.add_assoc]
    exact all (first + offset) (by omega)
  · rintro ⟨low, high⟩ offset less
    by_cases isLow : offset < first
    · exact low offset isLow
    · have there := high (offset - first) (by omega)
      rwa [Nat.add_assoc, Nat.add_sub_cancel' (Nat.not_lt.mp isLow)] at there

theorem accessible_page {user len : Nat}
    (inPage : len ≤ PGSIZE - user % PGSIZE) (positive : 0 < len) :
    Accessible task permitted user len ↔ fits task permitted user = true := by
  constructor
  · exact fun all => all 0 positive
  · intro first offset less
    have same : (user + offset) / PGSIZE = user / PGSIZE := by
      simp only [PGSIZE] at *
      omega
    rw [← first]
    simp only [fits, vaToPa, same]

/-- The program copies bytes from `user` on. If they are accessible it returns, with other
locks perhaps; if not, the task is killed, with locks that meet `during`. -/
structure Copies (task : Task) (permitted : Pte → Bool) (during : List Lock → Prop)
    (user bytes : Nat) (held after : List Lock) (program : LockM Unit) : Prop where
  leads : Accessible task permitted user bytes → Leads held after program
  killed : ¬Accessible task permitted user bytes →
    ∃ locks, during locks ∧ program held = kill task locks

namespace Copies

variable {task : Task} {permitted : Pte → Bool} {during : List Lock → Prop}
  {held middle after : List Lock} {user bytes : Nat} {program : LockM Unit}

theorem nothing (leads : Leads held after program) :
    Copies task permitted during user 0 held after program :=
  ⟨fun _ => leads, fun notAll => absurd (fun _ less => absurd less (Nat.not_lt_zero _)) notAll⟩

theorem seq {next : LockM Unit} {more : Nat}
    (first : Copies task permitted during user bytes held middle program)
    (second : Copies task permitted during (user + bytes) more middle after next) :
    Copies task permitted during user (bytes + more) held after (do program; next) := by
  constructor
  · intro all
    rcases (accessible_add ..).mp all with ⟨low, high⟩
    exact (first.leads low).seq (second.leads high)
  · intro notAll
    by_cases low : Accessible task permitted user bytes
    · have high : ¬Accessible task permitted (user + bytes) more :=
        fun high => notAll ((accessible_add ..).mpr ⟨low, high⟩)
      rcases second.killed high with ⟨locks, holds, killed⟩
      refine ⟨locks, holds, ?_⟩
      rw [Program.bind_eq, first.leads low]
      exact killed
    · rcases first.killed low with ⟨locks, holds, killed⟩
      rcases kill_eq task locks with ⟨switched, stops⟩
      refine ⟨locks, holds, ?_⟩
      rw [Program.bind_eq, killed, stops]

theorem following {step : LockM Unit} (leads : Leads held middle step)
    (copies : Copies task permitted during user bytes middle after program) :
    Copies task permitted during user bytes held after (do step; program) := by
  rw [← Nat.zero_add bytes]
  exact (nothing leads).seq copies

theorem followed {step : LockM Unit}
    (copies : Copies task permitted during user bytes held middle program)
    (leads : Leads middle after step) :
    Copies task permitted during user bytes held after (do program; step) :=
  copies.seq (nothing leads)

theorem locked {lock : Lock} (notHeld : lock ∉ held)
    (copies : Copies task permitted during user bytes (lock :: held) (lock :: held) program) :
    Copies task permitted during user bytes held held (locked lock program) :=
  following (.get notHeld) (copies.followed (.putHead lock))

variable {body : Nat → Nat → LockM Unit}

theorem chunksFrom {size : Nat → Nat → Nat} (positive : ∀ done pend, 0 < pend → 0 < size done pend)
    (bounded : ∀ done pend, size done pend ≤ pend)
    (copies : ∀ done pend, 0 < pend → Copies task permitted during (user + done) (size done pend)
      held held (body done (size done pend))) {fuel done pend : Nat} (enough : pend ≤ fuel) :
    Copies task permitted during (user + done) pend held held (chunks size body fuel done pend) := by
  induction fuel generalizing done pend with
  | zero =>
    obtain rfl : pend = 0 := by omega
    exact nothing .skip
  | succ fuel induction =>
    rw [Mem.chunks]
    split
    next zero =>
      subst zero
      exact nothing .skip
    next notZero =>
      have some := Nat.pos_of_ne_zero notZero
      have progress := positive done pend some
      have rest : Copies task permitted _ (user + (done + size done pend))
          (pend - size done pend) held held _ := induction (by omega)
      rw [← Nat.add_assoc] at rest
      have whole := (copies done pend some).seq rest
      rwa [Nat.add_sub_cancel' (bounded done pend)] at whole

theorem chunks {size : Nat → Nat → Nat} (positive : ∀ done pend, 0 < pend → 0 < size done pend)
    (bounded : ∀ done pend, size done pend ≤ pend)
    (copies : ∀ done pend, 0 < pend → Copies task permitted during (user + done) (size done pend)
      held held (body done (size done pend))) :
    Copies task permitted during user bytes held held (chunks size body bytes 0 bytes) := by
  rw [← Nat.add_zero user]
  exact chunksFrom positive bounded copies (Nat.le_refl bytes)

end Copies

theorem copies_copyUser (user bytes : Nat) (holds : during held) :
    Copies task permitted during user bytes held held (copyUser task permitted user bytes) := by
  have positive (done pend : Nat) (some : 0 < pend) :
      0 < min (PGSIZE - (user + done) % PGSIZE) pend := by
    have inPage : (user + done) % PGSIZE < PGSIZE := Nat.mod_lt _ (by decide)
    omega
  refine Copies.chunks positive ?_ ?_
  · intro done pend
    exact Nat.min_le_right _ _
  · intro done pend some
    have decides : Accessible task permitted (user + done) _ ↔ _ :=
      accessible_page task permitted (Nat.min_le_left _ pend) (positive done pend some)
    constructor
    · intro all
      rw [if_pos (decides.mp all)]
      exact .skip
    · intro notAll
      rw [if_neg fun first => notAll (decides.mpr first)]
      exact ⟨held, holds, rfl⟩

theorem copies_argstr (uaddr : Nat) (holds : during held) :
    Copies task readable during uaddr 1 held held (argstr task uaddr) := by
  have inPage : uaddr % PGSIZE < PGSIZE := Nat.mod_lt _ (by decide)
  have decides : Accessible task readable uaddr 1 ↔ _ :=
    accessible_page task readable (by omega) Nat.one_pos
  constructor
  · intro all
    rw [argstr, if_pos (decides.mp all)]
    exact .skip
  · intro notAll
    rw [argstr, if_neg fun first => notAll (decides.mpr first)]
    exact ⟨held, holds, rfl⟩

end Tnix.Mem
