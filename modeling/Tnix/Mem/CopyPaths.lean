import Tnix.Fs.Pipe
import Tnix.Mem.UserCopy

/-! # The system calls that copy to and from the user

What each caller of `copy_to_user`, `copy_from_user` and `argstr` holds when a page does not
fit. -/

namespace Tnix.Mem

open Tnix.Fs

/-! ## The callers -/

def sleep (lock : Lock) : LockM Unit := do
  lockGet .task
  lockPut lock
  -- `context_switch` and back
  lockPut .task
  lockGet lock

def bread (blockno : UInt32) : LockM Unit := do
  locked .bcache (return ())
  lockGet (.buffer blockno)

def brelse (blockno : UInt32) : LockM Unit := do
  lockPut (.buffer blockno)
  locked .bcache (return ())

def bwrite (blockno : UInt32) : LockM Unit := do
  if .buffer blockno ∉ (← get) then throw .panic

/-- An open file, with the numbers of the index and the data block that each offset
leads to. -/
structure InodeFile where
  off : UInt32
  fsize : UInt32
  index : UInt32 → UInt32
  data : UInt32 → UInt32
  /-- The block of the dinode. -/
  dinode : UInt32

/-- `blockno_of_data`; the number it returns is `file.data off`. -/
def blocknoOfData (file : InodeFile) (off : UInt32) : LockM Unit :=
  if off.toNat < BSIZE * NDIRECT then return ()
  else do
    bread (file.index off)
    brelse (file.index off)

def fread (task : Task) (file : InodeFile) (buf : Nat) (bytes : UInt32) : LockM Unit :=
  let pcur := fun done : Nat => file.off + done.toUInt32
  let pendBytes := min bytes.toNat (file.fsize - file.off).toNat
  chunks (fun done pend => min (BSIZE - (pcur done).toNat % BSIZE) pend)
    (fun done len => do
      blocknoOfData file (pcur done)
      bread (file.data (pcur done))
      copyToUser task (buf + done) len
      brelse (file.data (pcur done)))
    pendBytes 0 pendBytes

/-- The buffers that one `data_block_alloc` visits, and the one that it returns. -/
structure Growth where
  visited : List UInt32
  block : UInt32

def visitAll : List UInt32 → LockM Unit
  | [] => return ()
  | blockno :: rest => do
    bread blockno
    brelse blockno
    visitAll rest

/-- The growing loop of `fwrite`, where it does not panic. -/
def grow : List Growth → LockM Unit
  | [] => return ()
  | growth :: rest => do
    visitAll growth.visited
    bread growth.block
    brelse growth.block
    grow rest

def fwrite (task : Task) (file : InodeFile) (grown : List Growth) (buf : Nat)
    (bytes : UInt32) : LockM Unit := do
  let pcur := fun done : Nat => file.off + done.toUInt32
  grow grown
  chunks (fun done pend => min (BSIZE - (pcur done).toNat % BSIZE) pend)
    (fun done len => do
      blocknoOfData file (pcur done)
      bread (file.data (pcur done))
      copyFromUser task (buf + done) len
      bwrite (file.data (pcur done))
      brelse (file.data (pcur done)))
    bytes.toNat 0 bytes.toNat
  bread file.dinode
  bwrite file.dinode
  brelse file.dinode

/-- `piperead` on a pipe that is not empty any more after `waits` turns of sleep. -/
def piperead (task : Task) (index : Nat) (waits : Nat)
    (pipe : { pipe : Pipe // pipe.pipeIsempty = false }) (udst : Nat) (len : UInt32) :
    LockM Unit :=
  let bytes := min len.toNat pipe.val.pipeReadableSize.toNat
  locked (.pipe index) do
    repeated (sleep (.pipe index)) waits
    chunks (fun done pend =>
        min pend (PIPE_SIZE - (pipe.val.nread + done.toUInt32) % PIPE_SIZE).toNat)
      (fun done count => copyToUser task (udst + done) count) bytes 0 bytes
    wakeup task.others

/-- `pipewrite`, with the turns of sleep before each chunk and the room found then. -/
def pipewrite (task : Task) (index : Nat) (waits : Nat → Nat)
    (found : Nat → { pipe : Pipe // pipe.pipeWritableSize ≠ 0 }) (usrc : Nat)
    (len : UInt32) : LockM Unit :=
  locked (.pipe index) do
    chunks (fun done pend =>
        min (min pend (found done).val.pipeWritableSize.toNat)
          (PIPE_SIZE - (found done).val.nwrite % PIPE_SIZE).toNat)
      (fun done count => do
        repeated (do wakeup task.others; sleep (.pipe index)) (waits done)
        copyFromUser task (usrc + done) count)
      len.toNat 0 len.toNat
    wakeup task.others

def CONSOLE_BUFFER_SIZE : Nat := 128

structure ConsoleRing where
  r : Fin CONSOLE_BUFFER_SIZE
  w : Fin CONSOLE_BUFFER_SIZE

def ConsoleRing.readableLen (ring : ConsoleRing) : Nat :=
  (ring.w.val + CONSOLE_BUFFER_SIZE - ring.r.val) % CONSOLE_BUFFER_SIZE

/-- The lengths of the slices that `console_read` copies. The second one is a `u32` and
wraps if the bytes end before the ring does. -/
def ConsoleRing.slices (ring : ConsoleRing) (len : UInt32) : Nat × Nat :=
  let len := min len.toNat ring.readableLen
  if ring.r.val < ring.w.val then (len, 0)
  else
    let lslice1 := CONSOLE_BUFFER_SIZE - ring.r.val
    (lslice1, (len.toUInt32 - lslice1.toUInt32).toNat)

def consoleRead (task : Task) (waits : Nat) (ring : { ring : ConsoleRing // ring.r ≠ ring.w })
    (udst : Nat) (len : UInt32) : LockM Unit :=
  let slices := ring.val.slices len
  locked .console do
    repeated (sleep .console) waits
    copyToUser task udst slices.1
    copyToUser task (udst + slices.1) slices.2

def uartWrite (task : Task) (waits : Nat → Nat) (ustr : Nat) (len : UInt32) : LockM Unit :=
  locked .tx do
    chunks (fun _ pend => min pend 32)
      (fun done size => do
        copyFromUser task (ustr + done) size
        repeated (sleep .tx) (waits done))
      len.toNat 0 len.toNat

def searchPipes : Nat → LockM Unit
  | 0 => return ()
  | busy + 1 => do
    locked (.pipe busy) (return ())
    searchPipes busy

/-- `sys_pipe`, after `pipealloc` has looked at a number of pipes and each `falloc` at a
number of pages. -/
def sysPipe (task : Task) (pipes firstPages secondPages : Nat) (fds : Nat) : LockM Unit :=
  if fds = 0 then return ()
  else do
    locked .pipecache (searchPipes pipes)
    repeated (locked .slot (return ())) firstPages
    repeated (locked .slot (return ())) secondPages
    copyToUser task fds 4
    copyToUser task (fds + 4) 4

/-- `sys_wait` once a child has ended, after `waits` turns of sleep. -/
def sysWait (task : Task) (waits : Nat) (a0 : Nat) : LockM Unit := do
  repeated (locked .task (return ())) waits
  if a0 = 0 then return () else copyToUser task a0 4

/-- The paths to a copy, with what the kernel finds on the way. -/
inductive CopyPath
  | fread (file : InodeFile) (buf : Nat) (bytes : UInt32)
  | fwrite (file : InodeFile) (grown : List Growth) (buf : Nat) (bytes : UInt32)
  | piperead (index waits : Nat) (pipe : { pipe : Pipe // pipe.pipeIsempty = false })
      (udst : Nat) (len : UInt32)
  | pipewrite (index : Nat) (waits : Nat → Nat)
      (found : Nat → { pipe : Pipe // pipe.pipeWritableSize ≠ 0 }) (usrc : Nat) (len : UInt32)
  | consoleRead (waits : Nat) (ring : { ring : ConsoleRing // ring.r ≠ ring.w }) (udst : Nat)
      (len : UInt32)
  | uartWrite (waits : Nat → Nat) (ustr : Nat) (len : UInt32)
  | sysPipe (pipes firstPages secondPages fds : Nat)
  | sysWait (waits a0 : Nat)
  | argstr (uaddr : Nat)

namespace CopyPath

def run (task : Task) : CopyPath → LockM Unit
  | .fread file buf bytes => Mem.fread task file buf bytes
  | .fwrite file grown buf bytes => Mem.fwrite task file grown buf bytes
  | .piperead index waits pipe udst len => Mem.piperead task index waits pipe udst len
  | .pipewrite index waits found usrc len => Mem.pipewrite task index waits found usrc len
  | .consoleRead waits ring udst len => Mem.consoleRead task waits ring udst len
  | .uartWrite waits ustr len => Mem.uartWrite task waits ustr len
  | .sysPipe pipes firstPages secondPages fds =>
    Mem.sysPipe task pipes firstPages secondPages fds
  | .sysWait waits a0 => Mem.sysWait task waits a0
  | .argstr uaddr => Mem.argstr task uaddr

def inCritical : CopyPath → Bool
  | .sysPipe .. | .sysWait .. | .argstr .. => false
  | _ => true

def permitted : CopyPath → Pte → Bool
  | .fread .. | .piperead .. | .consoleRead .. | .sysPipe .. | .sysWait .. => writable
  | .fwrite .. | .pipewrite .. | .uartWrite .. | .argstr .. => readable

def user : CopyPath → Nat
  | .fread _ buf _ | .fwrite _ _ buf _ => buf
  | .piperead _ _ _ udst _ | .consoleRead _ _ udst _ => udst
  | .pipewrite _ _ _ usrc _ => usrc
  | .uartWrite _ ustr _ => ustr
  | .sysPipe _ _ _ fds => fds
  | .sysWait _ a0 => a0
  | .argstr uaddr => uaddr

def bytes : CopyPath → Nat
  | .fread file _ bytes => min bytes.toNat (file.fsize - file.off).toNat
  | .fwrite _ _ _ bytes => bytes.toNat
  | .piperead _ _ pipe _ len => min len.toNat pipe.val.pipeReadableSize.toNat
  | .pipewrite _ _ _ _ len => len.toNat
  | .consoleRead _ ring _ len => (ring.val.slices len).1 + (ring.val.slices len).2
  | .uartWrite _ _ len => len.toNat
  | .sysPipe _ _ _ fds => if fds = 0 then 0 else 8
  | .sysWait _ a0 => if a0 = 0 then 0 else 4
  | .argstr _ => 1

end CopyPath

/-! ## Steps that copy nothing -/

theorem leads_sleep {lock : Lock} (notTask : lock ≠ .task) : Leads [lock] [lock] (sleep lock) := by
  have put : Leads [.task, lock] [.task] (lockPut lock) := by
    have leads : Leads [.task, lock] _ (lockPut lock) := .put (by simp)
    rwa [List.erase_cons_tail (by simpa using notTask.symm), List.erase_cons_head] at leads
  exact Leads.seq (.get (by simpa using notTask.symm))
    (put.seq ((Leads.putHead .task).seq (.get (by simp))))

variable (blockno : UInt32)

theorem leads_bread : Leads [] [.buffer blockno] (bread blockno) :=
  Leads.seq (.locked (by simp) .skip) (.get (by simp))

theorem leads_brelse : Leads [.buffer blockno] [] (brelse blockno) :=
  (Leads.putHead _).seq (.locked (by simp) .skip)

theorem leads_bwrite : Leads [.buffer blockno] [.buffer blockno] (bwrite blockno) := by
  have isHeld : .buffer blockno ∈ [Lock.buffer blockno] := List.mem_singleton.mpr rfl
  have tested : ¬ .buffer blockno ∉ [Lock.buffer blockno] := not_not_intro isHeld
  rw [Leads, bwrite, Program.bind_eq]
  change (if _ then _ else _ : LockM Unit) [.buffer blockno] = _
  rw [if_neg tested]
  rfl

theorem leads_blocknoOfData (file : InodeFile) (off : UInt32) :
    Leads [] [] (blocknoOfData file off) := by
  rw [blocknoOfData]
  split
  · exact .skip
  · exact (leads_bread _).seq (leads_brelse _)

theorem leads_visitAll (visited : List UInt32) : Leads [] [] (visitAll visited) := by
  induction visited with
  | nil => exact .skip
  | cons blockno rest induction =>
    exact (leads_bread blockno).seq ((leads_brelse blockno).seq induction)

theorem leads_grow (grown : List Growth) : Leads [] [] (grow grown) := by
  induction grown with
  | nil => exact .skip
  | cons growth rest induction =>
    exact (leads_visitAll growth.visited).seq
      ((leads_bread growth.block).seq ((leads_brelse growth.block).seq induction))

theorem leads_searchPipes (busy : Nat) :
    Leads [.pipecache] [.pipecache] (searchPipes busy) := by
  induction busy with
  | zero => exact .skip
  | succ busy induction => exact .seq (.locked (by simp) .skip) induction

/-! ## The locks of each path -/

variable (task : Task)

theorem block_chunk_pos (pcur : UInt32) {pend : Nat} (some : 0 < pend) :
    0 < min (BSIZE - pcur.toNat % BSIZE) pend := by
  have inBlock : pcur.toNat % BSIZE < BSIZE := Nat.mod_lt _ (by decide)
  omega

theorem ring_rest_pos (counter : UInt32) : 0 < (PIPE_SIZE - counter % PIPE_SIZE).toNat := by
  have bound : (counter % PIPE_SIZE).toNat < 64 := by
    rw [UInt32.toNat_mod]
    exact Nat.mod_lt _ (by decide)
  have within : counter % PIPE_SIZE ≤ PIPE_SIZE := UInt32.le_iff_toNat_le.mpr (Nat.le_of_lt bound)
  rw [UInt32.toNat_sub_of_le _ _ within]
  have size : PIPE_SIZE.toNat = 64 := rfl
  omega

theorem copies_fread (file : InodeFile) (buf : Nat) (bytes : UInt32) :
    Copies task writable (· ≠ []) buf (min bytes.toNat (file.fsize - file.off).toNat) [] []
      (fread task file buf bytes) := by
  refine .chunks ?_ ?_ ?_
  · intro done pend some
    exact block_chunk_pos _ some
  · intro done pend
    exact Nat.min_le_right _ _
  · intro done pend some
    refine .following (leads_blocknoOfData _ _) (.following (leads_bread _) ?_)
    exact (copies_copyUser task writable _ _ (by simp)).followed (leads_brelse _)

theorem copies_fwrite (file : InodeFile) (grown : List Growth) (buf : Nat) (bytes : UInt32) :
    Copies task readable (· ≠ []) buf bytes.toNat [] [] (fwrite task file grown buf bytes) := by
  refine .following (leads_grow grown) (.followed (.chunks ?_ ?_ ?_) ?_)
  · intro done pend some
    exact block_chunk_pos _ some
  · intro done pend
    exact Nat.min_le_right _ _
  · intro done pend some
    refine .following (leads_blocknoOfData _ _) (.following (leads_bread _) ?_)
    exact (copies_copyUser task readable _ _ (by simp)).followed
      ((leads_bwrite _).seq (leads_brelse _))
  · exact (leads_bread _).seq ((leads_bwrite _).seq (leads_brelse _))

theorem copies_piperead (index waits : Nat)
    (pipe : { pipe : Pipe // pipe.pipeIsempty = false }) (udst : Nat) (len : UInt32) :
    Copies task writable (· ≠ []) udst (min len.toNat pipe.val.pipeReadableSize.toNat) [] []
      (piperead task index waits pipe udst len) := by
  refine .locked (by simp) (.following ((leads_sleep (by simp)).repeated waits) (.followed
    (.chunks ?_ ?_ ?_) (leads_wakeup (by simp) _)))
  · intro done pend some
    exact Nat.lt_min.mpr ⟨some, ring_rest_pos _⟩
  · intro done pend
    exact Nat.min_le_left _ _
  · intro done pend some
    exact copies_copyUser task writable _ _ (by simp)

theorem copies_pipewrite (index : Nat) (waits : Nat → Nat)
    (found : Nat → { pipe : Pipe // pipe.pipeWritableSize ≠ 0 }) (usrc : Nat) (len : UInt32) :
    Copies task readable (· ≠ []) usrc len.toNat [] []
      (pipewrite task index waits found usrc len) := by
  have wait : Leads [.pipe index] [.pipe index] (do wakeup task.others; sleep (.pipe index)) :=
    (leads_wakeup (by simp) _).seq (leads_sleep (by simp))
  refine .locked (by simp) (.followed (.chunks ?_ ?_ ?_) (leads_wakeup (by simp) _))
  · intro done pend some
    have room : 0 < (found done).val.pipeWritableSize.toNat := by
      refine Nat.pos_of_ne_zero fun zero => (found done).property ?_
      exact UInt32.toNat_inj.mp zero
    exact Nat.lt_min.mpr ⟨Nat.lt_min.mpr ⟨some, room⟩, ring_rest_pos _⟩
  · intro done pend
    exact (Nat.min_le_left _ _).trans (Nat.min_le_left _ _)
  · intro done pend some
    exact .following (wait.repeated (waits done)) (copies_copyUser task readable _ _ (by simp))

theorem copies_consoleRead (waits : Nat) (ring : { ring : ConsoleRing // ring.r ≠ ring.w })
    (udst : Nat) (len : UInt32) :
    Copies task writable (· ≠ []) udst ((ring.val.slices len).1 + (ring.val.slices len).2) [] []
      (consoleRead task waits ring udst len) := by
  have copy (user bytes : Nat) : Copies task writable (· ≠ []) user bytes [.console] [.console]
      (copyToUser task user bytes) := copies_copyUser task writable user bytes (by simp)
  exact .locked (by simp) (.following ((leads_sleep (by simp)).repeated waits)
    ((copy _ _).seq (copy _ _)))

theorem copies_uartWrite (waits : Nat → Nat) (ustr : Nat) (len : UInt32) :
    Copies task readable (· ≠ []) ustr len.toNat [] [] (uartWrite task waits ustr len) := by
  refine .locked (by simp) (.chunks ?_ ?_ ?_)
  · intro done pend some
    omega
  · intro done pend
    exact Nat.min_le_left _ _
  · intro done pend some
    exact (copies_copyUser task readable _ _ (by simp)).followed
      ((leads_sleep (by simp)).repeated (waits done))

theorem copies_sysPipe (pipes firstPages secondPages fds : Nat) :
    Copies task writable (· = []) fds (if fds = 0 then 0 else 8) [] []
      (sysPipe task pipes firstPages secondPages fds) := by
  have slot : Leads [] [] (locked .slot (return ())) := .locked (by simp) .skip
  have copy (user : Nat) : Copies task writable (· = []) user 4 [] [] (copyToUser task user 4) :=
    copies_copyUser task writable user 4 rfl
  rw [sysPipe]
  split
  · exact .nothing .skip
  · refine .following (.locked (by simp) (leads_searchPipes pipes)) (.following
      (slot.repeated firstPages) (.following (slot.repeated secondPages) ?_))
    exact (copy fds).seq (copy (fds + 4))

theorem copies_sysWait (waits a0 : Nat) :
    Copies task writable (· = []) a0 (if a0 = 0 then 0 else 4) [] [] (sysWait task waits a0) := by
  have asleep : Leads [] [] (locked .task (return ())) := .locked (by simp) .skip
  refine .following (asleep.repeated waits) ?_
  split
  · exact .nothing .skip
  · exact copies_copyUser task writable a0 4 rfl

theorem CopyPath.copies_run (path : CopyPath) :
    Copies task path.permitted (fun locks => path.inCritical = true ↔ locks ≠ []) path.user
      path.bytes [] [] (path.run task) := by
  have critical {permitted : Pte → Bool} {user bytes : Nat} {program : LockM Unit}
      (copies : Copies task permitted (· ≠ []) user bytes [] [] program) :
      Copies task permitted (fun locks => true = true ↔ locks ≠ []) user bytes [] [] program :=
    ⟨copies.leads, by simpa using copies.killed⟩
  have free {permitted : Pte → Bool} {user bytes : Nat} {program : LockM Unit}
      (copies : Copies task permitted (· = []) user bytes [] [] program) :
      Copies task permitted (fun locks => false = true ↔ locks ≠ []) user bytes [] [] program :=
    ⟨copies.leads, by simpa using copies.killed⟩
  cases path with
  | fread file buf bytes => exact critical (copies_fread task file buf bytes)
  | fwrite file grown buf bytes => exact critical (copies_fwrite task file grown buf bytes)
  | piperead index waits pipe udst len =>
    exact critical (copies_piperead task index waits pipe udst len)
  | pipewrite index waits found usrc len =>
    exact critical (copies_pipewrite task index waits found usrc len)
  | consoleRead waits ring udst len =>
    exact critical (copies_consoleRead task waits ring udst len)
  | uartWrite waits ustr len => exact critical (copies_uartWrite task waits ustr len)
  | sysPipe pipes firstPages secondPages fds =>
    exact free (copies_sysPipe task pipes firstPages secondPages fds)
  | sysWait waits a0 => exact free (copies_sysWait task waits a0)
  | argstr uaddr => exact free (copies_argstr task uaddr rfl)

/-- Whenever the path enters `kill` it holds nothing, and at the `context_switch` there
only the task's own lock. -/
def KilledFree (path : CopyPath) : Prop :=
  ∀ entry switched, path.run task [] = .error (.killed entry switched) →
    entry = [] ∧ switched = some [.task]

/-- A task is killed free of locks exactly on the paths that copy outside of critical
sections, or if it is not killed as all of the user's bytes are accessible. -/
theorem killedFree_iff (path : CopyPath) :
    KilledFree task path ↔
      (path.inCritical = false ∨ Accessible task path.permitted path.user path.bytes) := by
  have copies := path.copies_run task
  constructor
  · intro free
    by_cases all : Accessible task path.permitted path.user path.bytes
    · exact .inr all
    rcases copies.killed all with ⟨locks, holds, killed⟩
    rcases kill_eq task locks with ⟨switched, stops⟩
    have none := (free locks switched (killed.trans stops)).1
    left
    rw [← Bool.not_eq_true, holds]
    exact fun isSome => isSome none
  · intro condition entry switched ran
    by_cases all : Accessible task path.permitted path.user path.bytes
    · rw [copies.leads all] at ran
      cases ran
    rcases copies.killed all with ⟨locks, holds, killed⟩
    have outside := condition.resolve_right all
    have none : locks = [] := by
      by_contra isSome
      exact absurd (holds.mpr isSome) (by simp [outside])
    subst none
    rw [killed, kill_nil] at ran
    cases ran
    exact ⟨rfl, rfl⟩

/-- A reader of a pipe with one byte, into a page that is not mapped, with its own end
of the pipe open: it enters `kill` with the pipe's lock, and `clean_source` asks for that
lock again. -/
theorem piperead_killed_with_lock :
    (CopyPath.piperead 0 0 ⟨⟨0, 1, fun _ => 0⟩, rfl⟩ 4096 1).run
        ⟨fun _ => none, [.pipe 0], 0, 0, 0⟩ [] = .error (.killed [.pipe 0] none) := by
  decide +kernel

end Tnix.Mem
