import Mathlib.Data.Fintype.Basic
import Mathlib.Data.List.GetD
import Tnix.Foundation.Interleave
import Tnix.Foundation.Machine

/-! # `uart_write`

Calls of `uart_write` that run at the same time. They share the lock `tx`, the static
buffer and the transmit register. What is copied from the user is the call's own string. -/

namespace Tnix.Dev

open Function

def UART_BUF_SIZE : Nat := 32

/-- Where a call is; `ustr` is what is left of its string from the chunk it works on, and
`size` the length of the chunk. -/
inductive UartPc
  /-- Before `spin_get(&tx)`. -/
  | start
  /-- At the test of `len`. -/
  | loop (ustr : List UInt8)
  /-- At the test of `i`. -/
  | emit (ustr : List UInt8) (size i : Nat)
  /-- In `sleep`, with `tx` released. -/
  | asleep (ustr : List UInt8) (size i : Nat)
  | done
  deriving DecidableEq

/-- `thr` are the bytes written to the transmit register. -/
structure Uart (Call : Type) where
  tx : Option Call
  buf : Nat → UInt8
  pc : Call → UartPc
  thr : List UInt8

variable {Call : Type} [DecidableEq Call]

namespace Uart

def setPc (uart : Uart Call) (call : Call) (pc : UartPc) : Uart Call :=
  { uart with pc := update uart.pc call pc }

def fill (uart : Uart Call) (ustr : List UInt8) (size : Nat) : Uart Call :=
  { uart with buf := fun i => if i < size then ustr.getD i 0 else uart.buf i }

/-- A step of one call, at a time when the transmitter is ready or not. -/
def step (source : Call → List UInt8) (uart : Uart Call) (call : Call) (ready : Bool) :
    Option (Uart Call) :=
  match uart.pc call with
  | .start =>
    if uart.tx = none then
      some ({ uart with tx := some call }.setPc call (.loop (source call)))
    else none
  | .loop ustr =>
    if ustr.length = 0 then some ({ uart with tx := none }.setPc call .done)
    else
      let size := min ustr.length UART_BUF_SIZE
      some ((uart.fill ustr size).setPc call (.emit ustr size 0))
  | .emit ustr size i =>
    if i < size then
      if ready then
        some ({ uart with thr := uart.thr ++ [uart.buf i] }.setPc call (.emit ustr size (i + 1)))
      else some ({ uart with tx := none }.setPc call (.asleep ustr size i))
    else some (uart.setPc call (.loop (ustr.drop size)))
  | .asleep ustr size i =>
    if uart.tx = none then
      some ({ uart with tx := some call }.setPc call (.emit ustr size i))
    else none
  | .done => none

end Uart

/-- A label is the call that moves and whether the transmitter is ready then. -/
def uartMachine (source : Call → List UInt8) : Machine (Uart Call) (Call × Bool) where
  Initial uart := uart.tx = none ∧ (∀ call, uart.pc call = .start) ∧ uart.thr = []
  step uart label := uart.step source label.1 label.2

/-! ## Chunks -/

namespace UartPc

def rest (source : List UInt8) : UartPc → List UInt8
  | .start => source
  | .loop ustr => ustr
  | .emit ustr _ i => ustr.drop i
  | .asleep ustr _ i => ustr.drop i
  | .done => []

def chunk : UartPc → Option (List UInt8 × Nat × Nat)
  | .emit ustr size i => some (ustr, size, i)
  | .asleep ustr size i => some (ustr, size, i)
  | _ => none

def locked : UartPc → Bool
  | .loop _ => true
  | .emit _ _ _ => true
  | _ => false

/-- There is a chunk to copy. -/
def copies : UartPc → Bool
  | .loop ustr => ustr.length ≠ 0
  | _ => false

def sleeps : UartPc → Bool
  | .asleep _ _ _ => true
  | _ => false

end UartPc

/-- A call copies a chunk only while no other call sleeps with a chunk of its own. -/
def CopiesAlone (uart : Uart Call) (label : Call × Bool) : Prop :=
  (uart.pc label.1).copies = true → ∀ other, other ≠ label.1 → (uart.pc other).sleeps = false

instance [Fintype Call] (uart : Uart Call) (label : Call × Bool) :
    Decidable (CopiesAlone uart label) := inferInstanceAs (Decidable (_ → _))

/-- The calls write what they have to: `sent` are the bytes that each call has written. -/
structure Faithful (source : Call → List UInt8) (uart : Uart Call)
    (sent : Call → List UInt8) : Prop where
  interleaves : Interleaves uart.thr sent
  rest : ∀ call, source call = sent call ++ (uart.pc call).rest (source call)
  locked : ∀ call, (uart.pc call).locked = true ↔ uart.tx = some call
  alone : ∀ {call other chunk chunk'}, (uart.pc call).chunk = some chunk →
    (uart.pc other).chunk = some chunk' → call = other
  buffered : ∀ {call ustr size i}, (uart.pc call).chunk = some (ustr, size, i) →
    i ≤ size ∧ size ≤ ustr.length ∧ ∀ j, j < size → uart.buf j = ustr.getD j 0

namespace Faithful

variable {source : Call → List UInt8} {uart next : Uart Call} {sent : Call → List UInt8}
  {call : Call}

theorem move (faithful : Faithful source uart sent) {pc : UartPc} (sameThr : next.thr = uart.thr)
    (moved : next.pc = update uart.pc call pc)
    (sameRest : pc.rest (source call) = (uart.pc call).rest (source call))
    (locked : pc.locked = true ↔ next.tx = some call)
    (others : ∀ other, other ≠ call → (uart.tx = some other ↔ next.tx = some other))
    (alone : ∀ {other chunk chunk'}, pc.chunk = some chunk →
      (uart.pc other).chunk = some chunk' → other = call)
    (buffered : ∀ {ustr size i}, pc.chunk = some (ustr, size, i) →
      i ≤ size ∧ size ≤ ustr.length ∧ ∀ j, j < size → next.buf j = ustr.getD j 0)
    (sameBuf : ∀ other, other ≠ call → (uart.pc other).chunk ≠ none → next.buf = uart.buf) :
    Faithful source next sent := by
  have here : next.pc call = pc := by rw [moved, update_self]
  have there : ∀ other, other ≠ call → next.pc other = uart.pc other := by
    intro other different
    rw [moved, update_of_ne different]
  refine ⟨?_, ?_, ?_, ?_, ?_⟩
  · rw [sameThr]
    exact faithful.interleaves
  · intro other
    by_cases same : other = call
    · rw [same, here, sameRest]
      exact faithful.rest call
    · rw [there other same]
      exact faithful.rest other
  · intro other
    by_cases same : other = call
    · rw [same, here]
      exact locked
    · rw [there other same, ← others other same]
      exact faithful.locked other
  · intro first second chunk chunk' firstChunk secondChunk
    by_cases sameFirst : first = call <;> by_cases sameSecond : second = call
    · rw [sameFirst, sameSecond]
    · rw [sameFirst, here] at firstChunk
      rw [there second sameSecond] at secondChunk
      exact absurd (alone firstChunk secondChunk) sameSecond
    · rw [there first sameFirst] at firstChunk
      rw [sameSecond, here] at secondChunk
      exact absurd (alone secondChunk firstChunk) sameFirst
    · rw [there first sameFirst] at firstChunk
      rw [there second sameSecond] at secondChunk
      exact faithful.alone firstChunk secondChunk
  · intro other ustr size i isChunk
    by_cases same : other = call
    · rw [same, here] at isChunk
      exact buffered isChunk
    · rw [there other same] at isChunk
      rw [sameBuf other same (by rw [isChunk]; exact Option.some_ne_none _)]
      exact faithful.buffered isChunk

omit [DecidableEq Call] in
theorem others_of_free {tx : Option Call} (free : tx = none ∨ tx = some call) {tx' : Option Call}
    (freeToo : tx' = none ∨ tx' = some call) (other : Call) (different : other ≠ call) :
    tx = some other ↔ tx' = some other := by
  have not (lock : Option Call) (mine : lock = none ∨ lock = some call) : lock ≠ some other := by
    rintro rfl
    rcases mine with mine | mine
    · cases mine
    · exact different (Option.some.inj mine)
  exact iff_of_false (not tx free) (not tx' freeToo)

section
variable (faithful : Faithful source uart sent)
include faithful

theorem sleeps_of_chunk
    (mine : (uart.pc call).locked = true) {other : Call} (different : other ≠ call)
    {chunk : List UInt8 × Nat × Nat} (isChunk : (uart.pc other).chunk = some chunk) :
    (uart.pc other).sleeps = true := by
  have notMine : uart.tx ≠ some other := by
    rw [(faithful.locked call).mp mine]
    exact fun same => different (Option.some.inj same).symm
  have notLocked := mt (faithful.locked other).mp notMine
  cases atPc : uart.pc other with
  | asleep ustr size i => rfl
  | emit ustr size i =>
    rw [atPc] at notLocked
    exact absurd rfl notLocked
  | start | loop | done =>
    rw [atPc] at isChunk
    cases isChunk

theorem write {ustr : List UInt8} {size i : Nat}
    (atPc : uart.pc call = .emit ustr size i) (inChunk : i < size) : Faithful source
      ({ uart with thr := uart.thr ++ [uart.buf i] }.setPc call (.emit ustr size (i + 1)))
      (update sent call (sent call ++ [uart.buf i])) := by
  have isChunk : (uart.pc call).chunk = some (ustr, size, i) := by rw [atPc]; rfl
  rcases faithful.buffered isChunk with ⟨_, fits, stored⟩
  have there : ∀ other, other ≠ call →
      update uart.pc call (.emit ustr size (i + 1)) other = uart.pc other :=
    fun other different => update_of_ne different _ _
  have sameChunk : ∀ {other chunk},
      (update uart.pc call (.emit ustr size (i + 1)) other).chunk = some chunk →
      ∃ chunk', (uart.pc other).chunk = some chunk' := by
    intro other chunk found
    by_cases same : other = call
    · exact ⟨_, same ▸ isChunk⟩
    · rw [there other same] at found
      exact ⟨chunk, found⟩
  refine ⟨.snoc call _ faithful.interleaves, ?_, ?_, ?_, ?_⟩
  · intro other
    simp only [Uart.setPc]
    by_cases same : other = call
    · subst same
      have before := faithful.rest other
      have inString : i < ustr.length := Nat.lt_of_lt_of_le inChunk fits
      have byte : uart.buf i = ustr[i] := by
        rw [stored i inChunk, List.getD_eq_getElem _ _ inString]
      rw [atPc, UartPc.rest, List.drop_eq_getElem_cons inString] at before
      rw [update_self, update_self, UartPc.rest, byte, before]
      simp
    · rw [update_of_ne same, there other same]
      exact faithful.rest other
  · intro other
    simp only [Uart.setPc]
    by_cases same : other = call
    · subst same
      have mine := faithful.locked other
      rw [atPc] at mine
      rw [update_self]
      exact mine
    · rw [there other same]
      exact faithful.locked other
  · intro first second chunk chunk' firstChunk secondChunk
    rcases sameChunk firstChunk with ⟨_, firstBefore⟩
    rcases sameChunk secondChunk with ⟨_, secondBefore⟩
    exact faithful.alone firstBefore secondBefore
  · intro other ustr' size' i' found
    simp only [Uart.setPc] at found ⊢
    by_cases same : other = call
    · rw [same, update_self] at found
      cases found
      exact ⟨inChunk, fits, stored⟩
    · rw [there other same] at found
      exact faithful.buffered found

/-- A move that only takes or leaves the lock, and keeps the chunk of the call or drops it. -/
theorem relock {pc : UartPc} {tx : Option Call}
    (sameRest : pc.rest (source call) = (uart.pc call).rest (source call))
    (keeps : ∀ chunk, pc.chunk = some chunk → (uart.pc call).chunk = some chunk)
    (locked : pc.locked = true ↔ tx = some call) (before : uart.tx = none ∨ uart.tx = some call)
    (after : tx = none ∨ tx = some call) :
    Faithful source ({ uart with tx := tx }.setPc call pc) sent := by
  refine faithful.move rfl rfl sameRest locked (others_of_free before after) ?_ ?_ fun _ _ _ => rfl
  · intro other chunk chunk' isChunk otherChunk
    exact faithful.alone otherChunk (keeps _ isChunk)
  · intro ustr size i isChunk
    exact faithful.buffered (keeps _ isChunk)

theorem start (atPc : uart.pc call = .start) (free : uart.tx = none) :
    Faithful source ({ uart with tx := some call }.setPc call (.loop (source call))) sent := by
  refine faithful.relock ?_ ?_ (iff_of_true rfl rfl) (.inl free) (.inr rfl)
  · rw [atPc]
    rfl
  · rintro _ ⟨⟩

theorem finish (atPc : uart.pc call = .loop []) :
    Faithful source ({ uart with tx := none }.setPc call .done) sent := by
  have mine : uart.tx = some call := (faithful.locked call).mp (by rw [atPc]; rfl)
  refine faithful.relock ?_ ?_ ?_ (.inr mine) (.inl rfl)
  · rw [atPc]
    rfl
  · rintro _ ⟨⟩
  · exact iff_of_false Bool.false_ne_true (Option.some_ne_none call).symm

theorem copy {ready : Bool} {ustr : List UInt8} (copiesAlone : CopiesAlone uart (call, ready))
    (atPc : uart.pc call = .loop ustr) (more : ustr.length ≠ 0) :
    Faithful source ((uart.fill ustr (min ustr.length UART_BUF_SIZE)).setPc call
      (.emit ustr (min ustr.length UART_BUF_SIZE) 0)) sent := by
  have mine : uart.tx = some call := (faithful.locked call).mp (by rw [atPc]; rfl)
  -- No other call has a chunk: it would sleep, as this call has the lock.
  have noOther : ∀ {other chunk}, (uart.pc other).chunk = some chunk → other = call := by
    intro other chunk isChunk
    by_contra different
    have sleeps := faithful.sleeps_of_chunk (by rw [atPc]; rfl) different isChunk
    have awake := copiesAlone (by rw [atPc]; exact decide_eq_true more) other different
    rw [awake] at sleeps
    cases sleeps
  refine faithful.move rfl rfl ?_ (iff_of_true rfl mine) (others_of_free (.inr mine) (.inr mine))
    (fun _ => noOther) ?_ ?_
  · rw [atPc]
    rfl
  · intro ustr' size i isChunk
    cases isChunk
    exact ⟨Nat.zero_le _, Nat.min_le_left _ _, fun j inChunk => if_pos inChunk⟩
  · intro other different hasChunk
    rcases Option.ne_none_iff_exists'.mp hasChunk with ⟨chunk, isChunk⟩
    exact absurd (noOther isChunk) different

section
variable {ustr : List UInt8} {size i : Nat}

theorem sleep (atPc : uart.pc call = .emit ustr size i) :
    Faithful source ({ uart with tx := none }.setPc call (.asleep ustr size i)) sent := by
  have mine : uart.tx = some call := (faithful.locked call).mp (by rw [atPc]; rfl)
  refine faithful.relock ?_ ?_ ?_ (.inr mine) (.inl rfl)
  · rw [atPc]
    rfl
  · rw [atPc]
    exact fun _ => id
  · exact iff_of_false Bool.false_ne_true (Option.some_ne_none call).symm

theorem wake (atPc : uart.pc call = .asleep ustr size i) (free : uart.tx = none) :
    Faithful source ({ uart with tx := some call }.setPc call (.emit ustr size i)) sent := by
  refine faithful.relock ?_ ?_ (iff_of_true rfl rfl) (.inl free) (.inr rfl)
  · rw [atPc]
    rfl
  · rw [atPc]
    exact fun _ => id

theorem nextChunk (atPc : uart.pc call = .emit ustr size i) (sentAll : ¬ i < size) :
    Faithful source (uart.setPc call (.loop (ustr.drop size))) sent := by
  have mine : uart.tx = some call := (faithful.locked call).mp (by rw [atPc]; rfl)
  have atMost := (faithful.buffered (by rw [atPc]; rfl)).1
  have isEnd : i = size := Nat.le_antisymm atMost (Nat.not_lt.mp sentAll)
  refine faithful.relock ?_ ?_ (iff_of_true rfl mine) (.inr mine) (.inr mine)
  · rw [atPc, isEnd]
    rfl
  · rintro _ ⟨⟩

end

theorem step {ready : Bool} (copiesAlone : CopiesAlone uart (call, ready))
    (stepped : uart.step source call ready = some next) : ∃ sent', Faithful source next sent' := by
  rw [Uart.step] at stepped
  cases atPc : uart.pc call with
  | start =>
    simp only [atPc, Option.ite_none_right_eq_some, Option.some.injEq] at stepped
    exact ⟨sent, stepped.2 ▸ faithful.start atPc stepped.1⟩
  | loop ustr =>
    simp only [atPc] at stepped
    split at stepped
    case isTrue empty =>
      cases stepped
      exact ⟨sent, faithful.finish (List.eq_nil_of_length_eq_zero empty ▸ atPc)⟩
    case isFalse more =>
      cases stepped
      exact ⟨sent, faithful.copy copiesAlone atPc more⟩
  | emit ustr size i =>
    simp only [atPc] at stepped
    split at stepped
    case isTrue inChunk =>
      split at stepped
      case isTrue =>
        cases stepped
        exact ⟨_, faithful.write atPc inChunk⟩
      case isFalse =>
        cases stepped
        exact ⟨sent, faithful.sleep atPc⟩
    case isFalse sentAll =>
      cases stepped
      exact ⟨sent, faithful.nextChunk atPc sentAll⟩
  | asleep ustr size i =>
    simp only [atPc, Option.ite_none_right_eq_some, Option.some.injEq] at stepped
    exact ⟨sent, stepped.2 ▸ faithful.wake atPc stepped.1⟩
  | done =>
    simp only [atPc] at stepped
    cases stepped

end

theorem initial (isInitial : (uartMachine source).Initial uart) :
    Faithful source uart fun _ => [] := by
  rcases isInitial with ⟨free, atStart, empty⟩
  refine ⟨?_, ?_, ?_, ?_, ?_⟩
  · rw [empty]
    exact .nil
  · intro call
    rw [atStart]
    rfl
  · intro call
    rw [atStart, free]
    exact iff_of_false Bool.false_ne_true (Option.some_ne_none call).symm
  · intro first second chunk chunk' found
    rw [atStart] at found
    cases found
  · intro call ustr size i found
    rw [atStart] at found
    cases found

end Faithful

/-! ## Runs -/

/-- In runs in which calls copy alone, the bytes in the register are an interleaving of what
the calls have written of their strings, which is all of it for a call that has returned. -/
theorem uart_interleaves {source : Call → List UInt8} {uart : Uart Call}
    (reached : (uartMachine source).Reaches CopiesAlone uart) :
    ∃ sent : Call → List UInt8, Interleaves uart.thr sent ∧
      ∀ call, sent call <+: source call ∧ (uart.pc call = .done → sent call = source call) := by
  have invariant : ∃ sent, Faithful source uart sent := by
    refine reached.invariant (fun uart => ∃ sent, Faithful source uart sent)
      (fun _ isInitial => ⟨_, .initial isInitial⟩) ?_
    rintro state label later ⟨sent, faithful⟩ copiesAlone stepped
    exact faithful.step copiesAlone stepped
  rcases invariant with ⟨sent, faithful⟩
  refine ⟨sent, faithful.interleaves, ?_⟩
  intro call
  have sentAndLeft := faithful.rest call
  refine ⟨⟨_, sentAndLeft.symm⟩, ?_⟩
  intro isDone
  rw [isDone, UartPc.rest, List.append_nil] at sentAndLeft
  exact sentAndLeft.symm

def uartSource (call : Bool) : List UInt8 := if call then [99, 100] else [97, 98]

def uartStart : Uart Bool := ⟨none, fun _ => 0, fun _ => .start, []⟩

def uartRun : List (Bool × Bool) :=
  [(false, true), (false, true), (false, true), (false, false), (false, true), (false, true),
    (false, true), (false, true), (true, true), (true, true), (true, true), (true, true),
    (true, true), (true, true)]

theorem uart_interleaves_uartRun : ∃ uart, (uartMachine uartSource).run uartStart uartRun =
      some uart ∧ (∀ call, uart.pc call = .done) ∧ Interleaves uart.thr uartSource := by
  have ran : ((uartMachine uartSource).run uartStart uartRun).any fun uart =>
      decide (∀ call, uart.pc call = .done) := by
    decide +kernel
  have allows : (uartMachine uartSource).Allows CopiesAlone uartStart uartRun := by
    decide +kernel
  rcases (Option.any_eq_true _ _).mp ran with ⟨uart, reaches, checked⟩
  have allDone := of_decide_eq_true checked
  have started : (uartMachine uartSource).Initial uartStart := ⟨rfl, fun _ => rfl, rfl⟩
  rcases uart_interleaves (.run (.initial started) allows reaches) with ⟨sent, interleaves, whole⟩
  have isSource : sent = uartSource := funext fun call => (whole call).2 (allDone call)
  exact ⟨uart, reaches, allDone, isSource ▸ interleaves⟩

/-- The first call sleeps after its first byte, and the second one copies meanwhile. -/
def uartOverlap : List (Bool × Bool) :=
  [(false, true), (false, true), (false, true), (false, false), (true, true), (true, true),
    (true, true), (true, true), (true, true), (true, true), (false, true), (false, true),
    (false, true), (false, true)]

/-- Both calls return, and the bytes in the register are no interleaving of their strings:
the last one was written from the other call's chunk. -/
theorem uartOverlap_not_interleaved : ∃ uart, (uartMachine uartSource).Reachable uart ∧
    (∀ call, uart.pc call = .done) ∧ uart.thr = [97, 99, 100, 100] ∧
    ¬ Interleaves uart.thr uartSource := by
  have ran : ((uartMachine uartSource).run uartStart uartOverlap).any fun uart =>
      decide (∀ call, uart.pc call = .done) && decide (uart.thr = [97, 99, 100, 100]) := by
    decide +kernel
  rcases (Option.any_eq_true _ _).mp ran with ⟨uart, reaches, checked⟩
  simp only [Bool.and_eq_true, decide_eq_true_eq] at checked
  have started : (uartMachine uartSource).Initial uartStart := ⟨rfl, fun _ => rfl, rfl⟩
  refine ⟨uart, .run (.initial started) reaches, checked.1, checked.2, ?_⟩
  intro interleaves
  have inSource : 98 ∈ uartSource false := by decide
  have written := interleaves.mem inSource
  rw [checked.2] at written
  exact absurd written (by decide)

end Tnix.Dev
