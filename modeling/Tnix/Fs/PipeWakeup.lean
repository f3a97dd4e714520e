import Tnix.Fs.Pipe
import Tnix.Task.MonitorSteps

/-! # Pipes do not lose wakeups

`piperead` and `pipewrite` as client code of the thread machine. `p->lock` is the
guard; readers wait on `&p->nread` while the pipe is empty, writers on
`&p->nwrite` while it is full. -/

namespace Tnix.Fs

open Tnix.Task

/-- The addresses the calls sleep on. -/
inductive PipeChan
  | nread
  | nwrite
  deriving DecidableEq, Repr

inductive PipePosition
  /-- Outside of the two calls. -/
  | user
  /-- The loop test of `piperead`. -/
  | piperead (len : UInt32)
  /-- The loop test of `pipewrite`. -/
  | pipewrite (usrc : Nat → UInt8) (len totalWritten : UInt32)
  /-- `sleep` in `pipewrite`, after the wakeup of the readers. -/
  | pipewriteSleep (usrc : Nat → UInt8) (len totalWritten : UInt32)
  /-- `spin_put(&p->lock)` at the end of either call. -/
  | spinPut

inductive PipeInput
  | piperead (len : UInt32)
  | pipewrite (usrc : Nat → UInt8) (len : UInt32)
  /-- The timer interrupts user code. -/
  | yield
  /-- The call goes on. -/
  | run

/-- The code of `piperead` and `pipewrite`; `()` is `p->lock`. -/
def pipeStep (pipe : Pipe) :
    PipePosition → PipeInput → Option (Pipe × Action Unit PipeChan PipePosition)
  | .user, .piperead len => some (pipe, .spinGet () (.piperead len))
  | .user, .pipewrite usrc len => some (pipe, .spinGet () (.pipewrite usrc len 0))
  | .user, .yield => some (pipe, .yield .user)
  | .piperead len, .run =>
    match pipe.piperead len with
    | none => some (pipe, .sleep .nread (some ()) (.piperead len))
    | some (_, _, next) => some (next, .wakeup .nwrite .spinPut)
  | .pipewrite usrc len totalWritten, .run =>
    if totalWritten < len then
      match pipe.pipewriteChunk usrc len totalWritten with
      | none => some (pipe, .wakeup .nread (.pipewriteSleep usrc len totalWritten))
      | some (count, next) =>
        some (next, .goto (.pipewrite usrc len (totalWritten + count)))
    else some (pipe, .wakeup .nread .spinPut)
  | .pipewriteSleep usrc len totalWritten, .run =>
    some (pipe, .sleep .nwrite (some ()) (.pipewrite usrc len totalWritten))
  | .spinPut, .run => some (pipe, .spinPut () .user)
  | _, _ => none

def pipeProgram : Task.Program Unit PipeChan Pipe PipePosition PipeInput where
  start := .user
  step := pipeStep

def pipeMachine (count : Nat) :
    Machine (Threads count Unit PipeChan Pipe PipePosition) (Threads.Label count PipeInput) :=
  Threads.machine count pipeProgram fun pipe => pipe.nread = 0 ∧ pipe.nwrite = 0

def Pipe.Full (pipe : Pipe) : Prop := pipe.nwrite - pipe.nread = PIPE_SIZE

/-- Readers wait for bytes and writers for room. A writer owes the readers a
wakeup from its first turn on. -/
def pipeMonitor : Monitor PipeChan Pipe PipePosition where
  Need
    | .nread, pipe => pipe.pipeIsempty = true
    | .nwrite, pipe => pipe.Full
  Holds
    | .user => False
    | _ => True
  Owes
    | .pipewrite .., .nread => True
    | _, _ => False
  Knows
    | .pipewriteSleep .., pipe => pipe.Full
    | _, _ => True

theorem Pipe.full_iff (pipe : Pipe) : pipe.Full ↔ pipe.pipeWritableSize = 0 := by
  rw [Full, pipeWritableSize, sub_eq_zero, eq_comm]

theorem Pipe.piperead_eq_none (pipe : Pipe) (len : UInt32) :
    pipe.piperead len = none ↔ pipe.pipeIsempty = true := by
  simp only [piperead]
  split <;> simp_all

theorem Pipe.full_iff_pipewriteChunk (pipe : Pipe) (usrc : Nat → UInt8)
    (len totalWritten : UInt32) :
    pipe.Full ↔ pipe.pipewriteChunk usrc len totalWritten = none := by
  rw [full_iff]
  simp only [pipewriteChunk]
  split <;> simp_all

/-! ## The calls keep the discipline -/

section
variable {pipe next : Pipe} {input : PipeInput} {action : Action Unit PipeChan PipePosition}

theorem allows_user (taken : pipeStep pipe .user input = some (next, action)) :
    pipeMonitor.Allows () pipe .user next action := by
  cases input with
  | piperead len | pipewrite usrc len =>
    simp only [pipeStep, Option.some.injEq, Prod.mk.injEq] at taken
    obtain ⟨rfl, rfl⟩ := taken
    exact ⟨fun _ => ⟨id, trivial, fun _ => trivial⟩, fun different => absurd rfl different⟩
  | yield =>
    simp only [pipeStep, Option.some.injEq, Prod.mk.injEq] at taken
    obtain ⟨rfl, rfl⟩ := taken
    exact ⟨id, id⟩
  | run => simp [pipeStep] at taken

theorem allows_piperead {len : UInt32}
    (taken : pipeStep pipe (.piperead len) input = some (next, action)) :
    pipeMonitor.Allows () pipe (.piperead len) next action := by
  cases input with
  | piperead | pipewrite | yield => simp [pipeStep] at taken
  | run =>
    cases readOk : pipe.piperead len with
    | none =>
      simp only [pipeStep, readOk, Option.some.injEq, Prod.mk.injEq] at taken
      obtain ⟨rfl, rfl⟩ := taken
      refine ⟨fun _ => ⟨⟨trivial, fun _ => ⟨id, id⟩⟩, ?_, trivial, fun _ => trivial⟩, ?_⟩
      · exact (Pipe.piperead_eq_none pipe len).mp readOk
      · exact fun different => absurd rfl different
    | some result =>
      simp only [pipeStep, readOk, Option.some.injEq, Prod.mk.injEq] at taken
      obtain ⟨rfl, rfl⟩ := taken
      refine ⟨Iff.rfl, fun _ => ⟨trivial, ?_⟩⟩
      intro chan notDone owes
      cases chan with
      | nwrite => exact absurd rfl notDone
      | nread =>
        rcases owes with owes | ⟨empty, _⟩
        · exact owes
        · have waits := (Pipe.piperead_eq_none pipe len).mpr empty
          simp [waits] at readOk

theorem allows_pipewrite {usrc : Nat → UInt8} {len totalWritten : UInt32}
    (taken : pipeStep pipe (.pipewrite usrc len totalWritten) input = some (next, action)) :
    pipeMonitor.Allows () pipe (.pipewrite usrc len totalWritten) next action := by
  cases input with
  | piperead | pipewrite | yield => simp [pipeStep] at taken
  | run =>
    by_cases pending : totalWritten < len
    · cases chunkOk : pipe.pipewriteChunk usrc len totalWritten with
      | none =>
        simp only [pipeStep, pending, if_true, chunkOk, Option.some.injEq, Prod.mk.injEq] at taken
        obtain ⟨rfl, rfl⟩ := taken
        refine ⟨Iff.rfl, fun _ => ⟨?_, ?_⟩⟩
        · exact (pipe.full_iff_pipewriteChunk usrc len totalWritten).mpr chunkOk
        · intro chan notDone owes
          cases chan with
          | nread => exact absurd rfl notDone
          | nwrite =>
            rcases owes with owes | ⟨need, ended⟩
            · exact owes
            · exact ended need
      | some result =>
        simp only [pipeStep, pending, if_true, chunkOk, Option.some.injEq, Prod.mk.injEq] at taken
        obtain ⟨rfl, rfl⟩ := taken
        refine ⟨Iff.rfl, fun _ => ⟨trivial, ?_⟩⟩
        intro chan _ owes
        cases chan with
        | nread => trivial
        | nwrite =>
          rcases owes with owes | ⟨full, _⟩
          · exact owes
          · have waits :=
              (pipe.full_iff_pipewriteChunk usrc len totalWritten).mp full
            simp [waits] at chunkOk
    · simp only [pipeStep, pending, if_false, Option.some.injEq, Prod.mk.injEq] at taken
      obtain ⟨rfl, rfl⟩ := taken
      refine ⟨Iff.rfl, fun _ => ⟨trivial, ?_⟩⟩
      intro chan notDone owes
      cases chan with
      | nread => exact absurd rfl notDone
      | nwrite =>
        rcases owes with owes | ⟨need, ended⟩
        · exact owes
        · exact ended need

theorem allows_pipewriteSleep {usrc : Nat → UInt8} {len totalWritten : UInt32} (full : pipe.Full)
    (taken : pipeStep pipe (.pipewriteSleep usrc len totalWritten) input = some (next, action)) :
    pipeMonitor.Allows () pipe (.pipewriteSleep usrc len totalWritten) next action := by
  cases input with
  | piperead | pipewrite | yield => simp [pipeStep] at taken
  | run =>
    simp only [pipeStep, Option.some.injEq, Prod.mk.injEq] at taken
    obtain ⟨rfl, rfl⟩ := taken
    refine ⟨fun _ => ⟨⟨trivial, fun _ => ⟨id, id⟩⟩, full, trivial, fun _ => trivial⟩, ?_⟩
    exact fun different => absurd rfl different

theorem allows_spinPut (taken : pipeStep pipe .spinPut input = some (next, action)) :
    pipeMonitor.Allows () pipe .spinPut next action := by
  cases input with
  | piperead | pipewrite | yield => simp [pipeStep] at taken
  | run =>
    simp only [pipeStep, Option.some.injEq, Prod.mk.injEq] at taken
    obtain ⟨rfl, rfl⟩ := taken
    exact ⟨fun _ => ⟨⟨trivial, fun _ => ⟨id, id⟩⟩, id⟩, fun different => absurd rfl different⟩

end

theorem pipeMonitor_discipline : pipeMonitor.Discipline pipeProgram () := by
  refine ⟨id, ?_, ?_⟩
  · intro pipe here input next action taken outside
    cases here with
    | user => cases input <;> simp [pipeProgram, pipeStep] at taken <;> exact taken.1.symm
    | _ => exact absurd trivial outside
  · intro pipe here input next action taken knows
    cases here with
    | user => exact allows_user taken
    | piperead len => exact allows_piperead taken
    | pipewrite usrc len totalWritten => exact allows_pipewrite taken
    | pipewriteSleep usrc len totalWritten => exact allows_pipewriteSleep (knows trivial) taken
    | spinPut => exact allows_spinPut taken

/-! ## No lost wakeup -/

/-- While `p->lock` is free, a task sleeps on `&p->nread` only if the pipe is empty
and on `&p->nwrite` only if it is full. -/
theorem pipe_no_lost_wakeup {count : Nat} {threads : Threads count Unit PipeChan Pipe PipePosition}
    (reached : (pipeMachine count).Reachable threads) (free : threads.locks () = none) :
    (∀ task, threads.state task = .SLEEP → threads.chan task = some .nread →
      threads.shared.pipeIsempty = true) ∧
    (∀ task, threads.state task = .SLEEP → threads.chan task = some .nwrite →
      threads.shared.nwrite - threads.shared.nread = PIPE_SIZE) :=
  ⟨fun _ asleep chanIs =>
      Monitor.no_lost_wakeup pipeMonitor_discipline reached free asleep chanIs,
    fun _ asleep chanIs =>
      Monitor.no_lost_wakeup pipeMonitor_discipline reached free asleep chanIs⟩

def pipeExampleStart : Threads 2 Unit PipeChan Pipe PipePosition where
  shared := ⟨0, 0, fun _ => 0⟩
  locks := fun _ => none
  state := fun _ => .READY
  chan := fun _ => none
  lock := fun _ => none
  pc := fun _ => .off (.yield .user)

def pipeExampleRun : List (Threads.Label 2 PipeInput) :=
  [.schedule 0, .schedule 0, .advance 0, .client 0 (.piperead 5), .advance 0, .client 0 .run,
    .advance 0, .advance 0, .advance 0, .advance 0, .advance 0, .schedule 0]

theorem pipe_no_lost_wakeup_exampleRun :
    ∃ threads, (pipeMachine 2).run pipeExampleStart pipeExampleRun = some threads ∧
      threads.state 0 = .SLEEP ∧ threads.chan 0 = some .nread ∧
      threads.shared.pipeIsempty = true := by
  have started : (pipeMachine 2).Reachable pipeExampleStart :=
    .initial ⟨⟨rfl, rfl⟩, rfl, rfl, rfl, rfl, rfl⟩
  obtain ⟨threads, ran, free, asleep, chanIs⟩ : ∃ threads,
      (pipeMachine 2).run pipeExampleStart pipeExampleRun = some threads ∧
        threads.locks () = none ∧ threads.state 0 = .SLEEP ∧
        threads.chan 0 = some .nread := ⟨_, rfl, rfl, rfl, rfl⟩
  exact ⟨threads, ran, asleep, chanIs,
    (pipe_no_lost_wakeup (started.run ran) free).1 0 asleep chanIs⟩

end Tnix.Fs
