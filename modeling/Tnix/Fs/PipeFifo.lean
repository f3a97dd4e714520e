import Tnix.Foundation.Machine
import Tnix.Fs.Pipe

/-! # A pipe is a FIFO

Any number of `piperead` and `pipewrite` calls share one pipe. A read and one chunk of a write
are atomic under the pipe's lock, and user copies succeed. -/

namespace Tnix.Fs

open Function

/-- One call `pipewrite(p, usrc, len)`, with the value it returned if it did. -/
structure PipeWrite where
  usrc : Nat → UInt8
  len : UInt32
  totalWritten : UInt32
  returned : Option UInt32

namespace PipeWrite

def source (write : PipeWrite) : List UInt8 :=
  Ring.slice write.usrc 0 write.len.toNat

end PipeWrite

structure PipeFifo (Call : Type) where
  pipe : Pipe
  writes : Call → Option PipeWrite
  delivered : List UInt8
  committed : List (Call × List UInt8)

namespace PipeFifo

inductive Label (Call : Type)
  | pipewrite (call : Call) (usrc : Nat → UInt8) (len : UInt32)
  | chunk (call : Call)
  | finish (call : Call)
  | piperead (len : UInt32)

variable {Call : Type} [DecidableEq Call]

def chunksOf (state : PipeFifo Call) (call : Call) : List (List UInt8) :=
  (state.committed.filter fun entry => entry.1 = call).map Prod.snd

def step (state : PipeFifo Call) : Label Call → Option (PipeFifo Call)
  | .pipewrite call usrc len =>
    match state.writes call with
    | some _ => none
    | none => some { state with
        writes := update state.writes call
          (some ⟨usrc, len, 0, none⟩) }
  | .chunk call =>
    match state.writes call with
    | none => none
    | some write =>
      if write.totalWritten < write.len then
        match state.pipe.pipewriteChunk write.usrc write.len write.totalWritten with
        | none => none
        | some (count, pipe) => some { state with
            pipe
            writes := update state.writes call
              (some { write with totalWritten := write.totalWritten + count })
            committed := state.committed ++
              [(call, Ring.slice write.usrc write.totalWritten.toNat count.toNat)] }
      else none
  | .finish call =>
    match state.writes call with
    | none => none
    | some write =>
      if write.totalWritten < write.len then none
      else some { state with
        writes := update state.writes call
          (some { write with returned := some write.len }) }
  | .piperead len =>
    match state.pipe.piperead len with
    | none => none
    | some (_, bytes, pipe) => some { state with
        pipe
        delivered := state.delivered ++ bytes }

/-- A pipe as `pipealloc` leaves it: both counters zero, stale bytes in `buf`. -/
def machine (Call : Type) [DecidableEq Call] : Machine (PipeFifo Call) (Label Call) where
  Initial state := state.pipe.nread = 0 ∧ state.pipe.nwrite = 0 ∧
    state.writes = (fun _ => none) ∧ state.delivered = [] ∧ state.committed = []
  step := step

/-! ## The invariant -/

structure Invariant (state : PipeFifo Call) : Prop where
  bounded : state.pipe.Bounded
  conserved : state.delivered ++ state.pipe.stored =
    (state.committed.map Prod.snd).flatten
  fresh : ∀ call, state.writes call = none → state.chunksOf call = []
  within : ∀ call write, state.writes call = some write →
    write.totalWritten.toNat ≤ write.len.toNat
  chunks : ∀ call write, state.writes call = some write →
    (state.chunksOf call).flatten = Ring.slice write.usrc 0 write.totalWritten.toNat
  complete : ∀ call write count, state.writes call = some write →
    write.returned = some count → count = write.len ∧ write.totalWritten = write.len

variable {state : PipeFifo Call} {call : Call}

theorem Invariant.initial (isInitial : (machine Call).Initial state) : Invariant state := by
  rcases isInitial with ⟨readZero, writeZero, noWrites, noneDelivered, noneCommitted⟩
  have empty : state.pipe.available = 0 := by
    simp [Pipe.available, Pipe.pipeReadableSize, readZero, writeZero]
  constructor
  · simp [Pipe.Bounded, empty]
  · simp [Pipe.stored, empty, noneDelivered, noneCommitted]
  · simp [chunksOf, noneCommitted]
  all_goals simp [noWrites]

theorem Invariant.pipewrite (holds : Invariant state) (unused : state.writes call = none)
    (usrc : Nat → UInt8) (len : UInt32) :
    Invariant { state with writes := update state.writes call (some ⟨usrc, len, 0, none⟩) } := by
  have noChunks : state.chunksOf call = [] := holds.fresh call unused
  refine ⟨holds.bounded, holds.conserved, ?_, ?_, ?_, ?_⟩
  · intro other isNone
    by_cases same : other = call
    · subst same
      exact noChunks
    · exact holds.fresh other (by simpa [same] using isNone)
  · intro other write isWrite
    by_cases same : other = call
    · subst same
      simp at isWrite
      simp [← isWrite]
    · exact holds.within other write (by simpa [same] using isWrite)
  · intro other write isWrite
    by_cases same : other = call
    · subst same
      simp at isWrite
      change (state.chunksOf other).flatten = _
      simp [noChunks, ← isWrite, Ring.slice]
    · exact holds.chunks other write (by simpa [same] using isWrite)
  · intro other write count isWrite returned
    by_cases same : other = call
    · subst same
      simp at isWrite
      simp [← isWrite] at returned
    · exact holds.complete other write count (by simpa [same] using isWrite) returned

theorem Invariant.chunk (holds : Invariant state) {write : PipeWrite}
    (isWrite : state.writes call = some write) (pending : write.totalWritten < write.len)
    {count : UInt32} {pipe : Pipe}
    (wrote : state.pipe.pipewriteChunk write.usrc write.len write.totalWritten = some (count,
      pipe)) :
    Invariant { state with
      pipe
      writes := update state.writes call
        (some { write with totalWritten := write.totalWritten + count })
      committed := state.committed ++
        [(call, Ring.slice write.usrc write.totalWritten.toNat count.toNat)] } := by
  rcases Pipe.pipewriteChunk_spec holds.bounded pending wrote with
    ⟨_, countLe, total, stored, _, bounded⟩
  have pendingNat : write.totalWritten.toNat < write.len.toNat :=
    UInt32.lt_iff_toNat_lt.mp pending
  refine ⟨bounded, ?_, ?_, ?_, ?_, ?_⟩
  · simp [stored, ← holds.conserved]
  · intro other isNone
    by_cases same : other = call
    · subst same
      simp at isNone
    · have before := holds.fresh other (by simpa [same] using isNone)
      simpa [chunksOf, Ne.symm same] using before
  · intro other otherWrite isOther
    by_cases same : other = call
    · subst same
      simp at isOther
      simp only [← isOther]
      omega
    · exact holds.within other otherWrite (by simpa [same] using isOther)
  · intro other otherWrite isOther
    by_cases same : other = call
    · subst same
      simp at isOther
      have before := holds.chunks other write isWrite
      simp only [chunksOf] at before
      simp only [chunksOf, ← isOther, List.filter_append, List.map_append,
        List.flatten_append, before, total, Ring.slice_add]
      simp
    · have before := holds.chunks other otherWrite (by simpa [same] using isOther)
      simpa [chunksOf, Ne.symm same] using before
  · intro other otherWrite value isOther returned
    by_cases same : other = call
    · subst same
      simp at isOther
      -- A call that has returned has no chunk left to write.
      have done := holds.complete other write value isWrite
        (by simpa [← isOther] using returned)
      rw [done.2] at pendingNat
      omega
    · exact holds.complete other otherWrite value (by simpa [same] using isOther)
        returned

theorem Invariant.finish (holds : Invariant state) {write : PipeWrite}
    (isWrite : state.writes call = some write) (done : ¬ write.totalWritten < write.len) :
    Invariant { state with
      writes := update state.writes call
        (some { write with returned := some write.len }) } := by
  have total : write.totalWritten = write.len := by
    have within := holds.within call write isWrite
    have notLess : ¬ write.totalWritten.toNat < write.len.toNat := fun less =>
      done (UInt32.lt_iff_toNat_lt.mpr less)
    exact UInt32.toNat_inj.mp (by omega)
  refine ⟨holds.bounded, holds.conserved, ?_, ?_, ?_, ?_⟩
  · intro other isNone
    by_cases same : other = call
    · subst same
      simp at isNone
    · exact holds.fresh other (by simpa [same] using isNone)
  · intro other otherWrite isOther
    by_cases same : other = call
    · subst same
      simp at isOther
      simpa [← isOther] using holds.within other write isWrite
    · exact holds.within other otherWrite (by simpa [same] using isOther)
  · intro other otherWrite isOther
    by_cases same : other = call
    · subst same
      simp at isOther
      change (state.chunksOf other).flatten = _
      simpa [← isOther] using holds.chunks other write isWrite
    · exact holds.chunks other otherWrite (by simpa [same] using isOther)
  · intro other otherWrite count isOther returned
    by_cases same : other = call
    · subst same
      simp at isOther
      simp [← isOther] at returned
      simp [← isOther, ← returned, total]
    · exact holds.complete other otherWrite count (by simpa [same] using isOther)
        returned

theorem Invariant.piperead (holds : Invariant state) {len count : UInt32} {bytes : List UInt8}
    {pipe : Pipe} (readOk : state.pipe.piperead len = some (count, bytes, pipe)) :
    Invariant { state with pipe, delivered := state.delivered ++ bytes } := by
  rcases Pipe.piperead_spec readOk with ⟨_, _, split, left, _⟩
  refine ⟨?_, ?_, holds.fresh, holds.within, holds.chunks, holds.complete⟩
  · have bounded : state.pipe.available ≤ 64 := holds.bounded
    change pipe.available ≤ 64
    omega
  · simpa [List.append_assoc, split] using holds.conserved

theorem Invariant.step {next : PipeFifo Call} {label : Label Call} (holds : Invariant state)
    (stepped : state.step label = some next) :
    Invariant next := by
  cases label with
  | pipewrite call usrc len =>
    simp only [PipeFifo.step] at stepped
    split at stepped
    · cases stepped
    next unused =>
      cases stepped
      exact holds.pipewrite unused usrc len
  | chunk call =>
    simp only [PipeFifo.step] at stepped
    split at stepped
    · cases stepped
    next write isWrite =>
      split at stepped
      next pending =>
        split at stepped
        · cases stepped
        next count pipe wrote =>
          cases stepped
          exact holds.chunk isWrite pending wrote
      · cases stepped
  | finish call =>
    simp only [PipeFifo.step] at stepped
    split at stepped
    · cases stepped
    next write isWrite =>
      split at stepped
      · cases stepped
      next done =>
        cases stepped
        exact holds.finish isWrite done
  | piperead len =>
    simp only [PipeFifo.step] at stepped
    split at stepped
    · cases stepped
    next count bytes pipe readOk =>
      cases stepped
      exact holds.piperead readOk

theorem reachable_invariant (reached : (machine Call).Reachable state) : Invariant state :=
  reached.invariant Invariant (fun _ isInitial => .initial isInitial)
    (fun _ _ _ holds _ stepped => holds.step stepped)

/-! ## FIFO order -/

/-- In every reachable state the ring is not overfull, delivered bytes followed
by stored bytes are the committed chunks in commit order, the chunks of a call
are the part of its source written so far (all of it once the call has
returned), and a read returns `min(len, available)` bytes, waiting only on an
empty pipe. -/
theorem pipe_is_fifo {state : PipeFifo Call} (reached : (machine Call).Reachable state) :
    (state.pipe.nwrite - state.pipe.nread).toNat ≤ PIPE_SIZE.toNat ∧
      state.delivered ++ state.pipe.stored = (state.committed.map Prod.snd).flatten ∧
      (∀ call write, state.writes call = some write →
        (state.chunksOf call).flatten = write.source.take write.totalWritten.toNat ∧
          ∀ count, write.returned = some count →
            count = write.len ∧ (state.chunksOf call).flatten = write.source) ∧
      (∀ len count bytes pipe, state.pipe.piperead len = some (count, bytes, pipe) →
        count.toNat = min len.toNat state.pipe.stored.length ∧
          bytes.length = count.toNat) ∧
      (∀ len, state.pipe.piperead len = none ↔ state.pipe.stored = []) := by
  have holds := reachable_invariant reached
  refine ⟨holds.bounded, holds.conserved, ?_, ?_, ?_⟩
  · intro call write isWrite
    have chunks := holds.chunks call write isWrite
    refine ⟨?_, ?_⟩
    · rw [chunks, PipeWrite.source, Ring.slice_eq_take _ _ _ _ (holds.within call write isWrite)]
    · intro count returned
      have complete := holds.complete call write count isWrite returned
      exact ⟨complete.1, by rw [chunks, complete.2, PipeWrite.source]⟩
  · intro len count bytes pipe readOk
    rcases Pipe.piperead_spec readOk with ⟨counted, length, _⟩
    rw [Pipe.length_stored]
    exact ⟨counted, length.trans counted.symm⟩
  · intro len
    rw [← List.length_eq_zero_iff, Pipe.length_stored, ← Pipe.pipeIsempty_iff]
    simp only [Pipe.piperead]
    split <;> simp_all

def exampleRun : List (Label Unit) :=
  [.pipewrite () (fun index => UInt8.ofNat (index + 1)) 3, .chunk (), .finish (), .piperead 2]

def exampleStart : PipeFifo Unit where
  pipe := ⟨0, 0, fun _ => 0⟩
  writes := fun _ => none
  delivered := []
  committed := []

theorem pipe_is_fifo_exampleRun :
    ∃ state, (machine Unit).run exampleStart exampleRun = some state ∧
      state.delivered = [1, 2] ∧ state.pipe.stored = [3] ∧
      state.delivered ++ state.pipe.stored = (state.committed.map Prod.snd).flatten := by
  have started : (machine Unit).Reachable exampleStart :=
    .initial ⟨rfl, rfl, rfl, rfl, rfl⟩
  have isSome : ((machine Unit).run exampleStart exampleRun).isSome = true := by
    decide
  rcases Option.isSome_iff_exists.mp isSome with ⟨state, ran⟩
  refine ⟨state, ran, ?_, ?_, (pipe_is_fifo (started.run ran)).2.1⟩
  · have computed : ((machine Unit).run exampleStart exampleRun).map
        (fun final => final.delivered) = some [1, 2] := by decide
    simpa [ran] using computed
  · have computed : ((machine Unit).run exampleStart exampleRun).map
        (fun final => final.pipe.stored) = some [3] := by decide
    simpa [ran] using computed

end PipeFifo
end Tnix.Fs
