import Tnix.Foundation.Ring

/-! # `console.c`

The characters sent back to the UART, the lock and the wakeups are left out. The accesses
to the two arrays are recorded with their indices. -/

namespace Tnix.Dev

open Function List

def CONSOLE_BUFFER_SIZE : Nat := 128

inductive Access
  | buf (index : Int)
  | tb (index : Int)
  deriving DecidableEq

def Access.InRange : Access → Prop
  | .buf index => 0 ≤ index ∧ index < 128
  | .tb index => 0 ≤ index ∧ index < 8

instance (access : Access) : Decidable access.InRange := by
  cases access <;> exact inferInstanceAs (Decidable (_ ∧ _))

/-- The structure `con`. The cells of `buf` from 128 on are the memory behind the array. -/
structure Console where
  r : Nat
  w : Nat
  buf : Nat → UInt8
  tb : Nat → UInt8
  tflag : Bool
  i : Nat
  accesses : List Access

namespace Console

def initial : Console := ⟨0, 0, fun _ => 0, fun _ => 0, false, 0, []⟩

def access (con : Console) (access : Access) : Console :=
  { con with accesses := access :: con.accesses }

def readableLen (con : Console) : Nat :=
  (con.w + CONSOLE_BUFFER_SIZE - con.r) % CONSOLE_BUFFER_SIZE

def isfull (con : Console) : Bool := (con.w + 1) % CONSOLE_BUFFER_SIZE == con.r

def isempty (con : Console) : Bool := con.w == con.r

def resetTb (con : Console) : Console :=
  { con with tb := fun index => if index < 8 then 0 else con.tb index, tflag := false, i := 0 }

def cleanConsole (con : Console) : Console :=
  { con.resetTb with
    r := 0, w := 0, buf := fun index => if index < CONSOLE_BUFFER_SIZE then 0 else con.buf index }

def tryTransfer (con : Console) : Console :=
  let ch := con.tb (con.i - 1)
  let con := con.access (.tb (con.i - 1))
  if ch = 79 then con
  else if ch = 126 ∨ ch = 7 ∨ ch = 92 then con.resetTb
  else if (97 ≤ ch ∧ ch ≤ 122) ∨ (65 ≤ ch ∧ ch ≤ 90) then con.resetTb
  else con

/-- `con.tb[con.i++] = ch`; `con.i` is a `u8`. -/
def putTb (con : Console) (ch : UInt8) : Console :=
  { con.access (.tb con.i) with tb := update con.tb con.i ch, i := (con.i + 1) % 256 }

/-- `con.buf[con.w - 1]`. The byte in front of the array is the last one of `con.w`. -/
def last (con : Console) : UInt8 := if con.w = 0 then 0 else con.buf (con.w - 1)

def consolePutc (con : Console) (ch : UInt8) : Console :=
  if con.tflag = false then
    if ch = 8 then
      let con := con.access (.buf (con.w - 1))
      if con.last ≠ 10 ∧ con.w ≠ con.r then
        { con with w := (con.w + CONSOLE_BUFFER_SIZE - 1) % CONSOLE_BUFFER_SIZE }
      else con
    else if ch = 27 then { con.putTb 27 with tflag := true }
    else if con.isfull = false then
      { con.access (.buf con.w) with
        buf := update con.buf con.w ch, w := (con.w + 1) % CONSOLE_BUFFER_SIZE }
    else con
  else (con.putTb ch).tryTransfer

/-- The calls of `console_putc` for a character; `CTRL('P')` and `CTRL('N')` make none. -/
def doConsoleIrq (con : Console) (ch : UInt8) : Console :=
  if ch = 27 then con.consolePutc 27
  else if ch = 127 then ((con.consolePutc 8).consolePutc 32).consolePutc 8
  else if ch = 13 ∨ ch = 10 then con.consolePutc 10
  else if 32 ≤ ch ∧ ch ≤ 126 then con.consolePutc ch
  else if ch = 14 then con.cleanConsole
  else if ch = 4 then con.consolePutc 4
  else con

/-- `console_read` after its emptiness wait: the return value, the bytes copied to the user
one after the other, and the console. -/
def consoleRead (con : Console) (len : UInt32) : Option (UInt32 × List UInt8 × Console) :=
  if con.isempty then none
  else
    let len := if len < UInt32.ofNat con.readableLen then len else UInt32.ofNat con.readableLen
    let copied :=
      if con.r < con.w then Ring.slice con.buf con.r len.toNat
      else
        let lslice1 := UInt32.ofNat (CONSOLE_BUFFER_SIZE - con.r)
        let lslice2 := len - lslice1
        Ring.slice con.buf con.r lslice1.toNat ++ Ring.slice con.buf 0 lslice2.toNat
    some (len, copied, { con with r := (con.r + len.toNat) % CONSOLE_BUFFER_SIZE })

structure InRing (con : Console) : Prop where
  r : con.r < 128
  w : con.w < 128

def unread (con : Console) : List UInt8 := Ring.window 128 con.buf con.r con.readableLen

/-! ## Reading -/

/-- The first bytes of the ring are copied and taken from it. -/
def ReadsFifo (con : Console) (len : UInt32) : Prop :=
  con.consoleRead len = some (UInt32.ofNat (min len.toNat con.readableLen),
    Ring.window 128 con.buf con.r (min len.toNat con.readableLen),
    { con with r := (con.r + min len.toNat con.readableLen) % 128 })

variable {con : Console}

theorem readableLen_lt (con : Console) : con.readableLen < 128 := Nat.mod_lt _ (by decide)

theorem toNat_min (len : UInt32) :
    (if len < UInt32.ofNat con.readableLen then len else UInt32.ofNat con.readableLen) =
      UInt32.ofNat (min len.toNat con.readableLen) ∧
    (UInt32.ofNat (min len.toNat con.readableLen)).toNat = min len.toNat con.readableLen := by
  have bound := con.readableLen_lt
  have value : (UInt32.ofNat con.readableLen).toNat = con.readableLen :=
    UInt32.toNat_ofNat_of_lt' (by simp only [UInt32.size]; omega)
  constructor
  · split
    case isTrue less =>
      rw [UInt32.lt_iff_toNat_lt, value] at less
      rw [Nat.min_eq_left (Nat.le_of_lt less), UInt32.ofNat_toNat]
    case isFalse notLess =>
      rw [UInt32.lt_iff_toNat_lt, value] at notLess
      rw [Nat.min_eq_right (Nat.not_lt.mp notLess)]
  · exact UInt32.toNat_ofNat_of_lt' (by simp only [UInt32.size]; omega)

/-- `console_read` is a FIFO read if and only if the unread bytes do not wrap around, or the
request covers all of the first slice. -/
theorem readsFifo_iff (inRing : con.InRing) (nonempty : con.r ≠ con.w) (len : UInt32) :
    con.ReadsFifo len ↔ con.r < con.w ∨ 128 - con.r ≤ len.toNat := by
  have rRange := inRing.r
  have wRange := inRing.w
  have bound := con.readableLen_lt
  have available : con.readableLen = if con.r < con.w then con.w - con.r
      else 128 - con.r + con.w := by
    rw [readableLen, CONSOLE_BUFFER_SIZE]
    split <;> omega
  have notEmpty : con.isempty = false := by
    rw [isempty, beq_eq_false_iff_ne]
    exact nonempty.symm
  have count := con.toNat_min len
  have first : (UInt32.ofNat (128 - con.r)).toNat = 128 - con.r :=
    UInt32.toNat_ofNat_of_lt' (by simp only [UInt32.size]; omega)
  rw [ReadsFifo, consoleRead, notEmpty, if_neg Bool.false_ne_true, count.1]
  simp only [CONSOLE_BUFFER_SIZE, count.2, first, Option.some.injEq, Prod.mk.injEq, true_and,
    and_true]
  by_cases ahead : con.r < con.w
  · rw [if_pos ahead] at available ⊢
    refine iff_of_true ?_ (.inl ahead)
    rw [Ring.window_eq_slice _ (by omega), Nat.mod_eq_of_lt rRange]
  · rw [if_neg ahead] at available ⊢
    rw [or_iff_right ahead]
    by_cases covers : 128 - con.r ≤ len.toNat
    · refine iff_of_true ?_ covers
      have rest : (UInt32.ofNat (min len.toNat con.readableLen) - UInt32.ofNat (128 - con.r)).toNat =
          min len.toNat con.readableLen - (128 - con.r) := by
        rw [UInt32.toNat_sub_of_le _ _ (by rw [UInt32.le_iff_toNat_le, count.2, first]; omega),
          count.2, first]
      have whole : min len.toNat con.readableLen =
          128 - con.r + (min len.toNat con.readableLen - (128 - con.r)) := by omega
      have wraps : (con.r + (128 - con.r)) % 128 = 0 := by omega
      rw [rest]
      conv_rhs => rw [whole]
      rw [Ring.window_add, Ring.window_eq_slice _ (by omega), Nat.mod_eq_of_lt rRange,
        Ring.window_eq_slice _ (by omega), wraps]
    · -- The second length wraps around.
      refine iff_of_false (fun same => ?_) covers
      have lengths := congrArg List.length same
      rw [length_append, Ring.length_slice, Ring.length_slice, Ring.length_window,
        UInt32.toNat_sub, count.2, first] at lengths
      omega

def wrapped : Console := { initial with r := 126, w := 1 }

theorem readsFifo_wrapped : wrapped.ReadsFifo 2 :=
  (readsFifo_iff ⟨by decide, by decide⟩ (by decide) 2).mpr (.inr (by decide))

/-- A request for one byte of them copies more than four gigabytes. -/
theorem consoleRead_overruns : wrapped.InRing ∧ wrapped.r ≠ wrapped.w ∧
    ¬ wrapped.ReadsFifo 1 ∧
    (wrapped.consoleRead 1).map (fun result => result.2.1.length) = some 4294967297 := by
  have lengths : (wrapped.consoleRead 1).map (fun result => result.2.1.length) =
      some 4294967297 := by
    have copied : wrapped.consoleRead 1 = some (1, Ring.slice wrapped.buf 126 2 ++
        Ring.slice wrapped.buf 0 4294967295, { wrapped with r := 127 }) := rfl
    rw [copied, Option.map_some, length_append, Ring.length_slice, Ring.length_slice]
  refine ⟨⟨by decide, by decide⟩, by decide, fun reads => ?_, lengths⟩
  rw [ReadsFifo] at reads
  rw [reads, Option.map_some, Ring.length_window] at lengths
  exact absurd lengths (by decide)

/-! ## Backspace -/

/-- Backspace takes the last unread byte away unless it is a newline, and does not access
`buf` outside of the array. -/
structure EditsLine (con : Console) : Prop where
  inRange : ∃ new, (con.doConsoleIrq 127).accesses = new ++ con.accesses ∧
    ∀ access ∈ new, access.InRange
  effect : (con.doConsoleIrq 127).r = con.r ∧
    if con.unread ≠ [] ∧ con.unread.getLast? ≠ some 10 then
      (con.doConsoleIrq 127).unread = con.unread.dropLast
    else (con.doConsoleIrq 127).w = con.w ∧ (con.doConsoleIrq 127).unread = con.unread

theorem place (inRing : con.InRing) : (con.r + con.readableLen) % 128 = con.w := by
  have := inRing.r
  have := inRing.w
  rw [readableLen, CONSOLE_BUFFER_SIZE]
  omega

theorem unread_eq (inRing : con.InRing) (nonempty : con.w ≠ con.r) :
    con.unread = Ring.window 128 con.buf con.r (con.readableLen - 1) ++
      [con.buf ((con.w + 127) % 128)] := by
  have isPlace := place inRing
  have := inRing.r
  have := inRing.w
  have positive : con.readableLen = con.readableLen - 1 + 1 := by
    rw [readableLen, CONSOLE_BUFFER_SIZE]
    omega
  have cell : (con.r + (con.readableLen - 1)) % 128 = (con.w + 127) % 128 := by omega
  rw [unread, positive, Ring.window_add]
  simp [Ring.window, cell]

theorem consolePutc_backspace (closed : con.tflag = false) : con.consolePutc 8 = { con with
      w := if con.last ≠ 10 ∧ con.w ≠ con.r then (con.w + 127) % 128 else con.w
      accesses := .buf (con.w - 1) :: con.accesses } := by
  rw [consolePutc, if_pos closed, if_pos rfl]
  split
  case isTrue deletes =>
    rw [if_pos (by exact deletes)]
    rfl
  case isFalse keeps =>
    rw [if_neg (by exact keeps)]
    rfl

theorem consolePutc_space (closed : con.tflag = false) : con.consolePutc 32 =
    if con.isfull = false then { con with
      buf := update con.buf con.w 32, w := (con.w + 1) % 128
      accesses := .buf con.w :: con.accesses }
    else con := by
  rw [consolePutc, if_pos closed, if_neg (by decide), if_neg (by decide)]
  rfl

theorem isfull_eq_false : con.isfull = false ↔ (con.w + 1) % 128 ≠ con.r := by
  rw [isfull, beq_eq_false_iff_ne]
  rfl

theorem backspace_deletes (inRing : con.InRing) (closed : con.tflag = false)
    (deletes : con.last ≠ 10 ∧ con.w ≠ con.r) :
    con.doConsoleIrq 127 = { con with
      buf := update con.buf ((con.w + 127) % 128) 32, w := (con.w + 127) % 128
      accesses := [.buf (con.w - 1), .buf ((con.w + 127) % 128 : Nat), .buf (con.w - 1)] ++
        con.accesses } := by
  have := inRing.w
  have back : ((con.w + 127) % 128 + 1) % 128 = con.w := by omega
  have irq : con.doConsoleIrq 127 = ((con.consolePutc 8).consolePutc 32).consolePutc 8 := rfl
  have notNewline : (if con.w = 0 then 0
      else update con.buf ((con.w + 127) % 128) 32 (con.w - 1)) ≠ 10 := by
    split
    case isTrue => decide
    case isFalse positive =>
      rw [show (con.w + 127) % 128 = con.w - 1 by omega, update_self]
      decide
  rw [irq, consolePutc_backspace closed, if_pos deletes, consolePutc_space (by exact closed),
    if_pos (isfull_eq_false.mpr (by simp only [back]; exact deletes.2)),
    consolePutc_backspace (by exact closed)]
  simp only [back, last]
  rw [if_pos ⟨notNewline, deletes.2⟩]
  rfl

theorem backspace_keeps (inRing : con.InRing) (closed : con.tflag = false)
    (keeps : ¬ (con.last ≠ 10 ∧ con.w ≠ con.r)) :
    con.doConsoleIrq 127 =
      if con.isfull = false then { con with
        buf := update con.buf con.w 32
        accesses := [.buf (((con.w + 1) % 128 : Nat) - 1), .buf con.w, .buf (con.w - 1)] ++
          con.accesses }
      else { con with accesses := [.buf (con.w - 1), .buf (con.w - 1)] ++ con.accesses } := by
  have := inRing.w
  have back : ((con.w + 1) % 128 + 127) % 128 = con.w := by omega
  have irq : con.doConsoleIrq 127 = ((con.consolePutc 8).consolePutc 32).consolePutc 8 := rfl
  have notNewline : (if (con.w + 1) % 128 = 0 then 0
      else update con.buf con.w 32 ((con.w + 1) % 128 - 1)) ≠ 10 := by
    split
    case isTrue => decide
    case isFalse positive =>
      rw [show (con.w + 1) % 128 - 1 = con.w by omega, update_self]
      decide
  rw [irq, consolePutc_backspace closed, if_neg keeps, consolePutc_space (by exact closed)]
  split
  case isTrue room =>
    have apart := isfull_eq_false.mp room
    rw [if_pos (by exact room), consolePutc_backspace (by exact closed)]
    simp only [back, last]
    rw [if_pos ⟨notNewline, apart⟩]
    rfl
  case isFalse full =>
    rw [if_neg (by exact full), consolePutc_backspace (by exact closed)]
    simp only
    rw [if_neg (by exact keeps)]
    rfl

theorem deletes_iff (inRing : con.InRing) (notStart : con.w ≠ 0) :
    (con.last ≠ 10 ∧ con.w ≠ con.r) ↔ (con.unread ≠ [] ∧ con.unread.getLast? ≠ some 10) := by
  have := inRing.w
  by_cases empty : con.w = con.r
  · have nothing : con.unread = [] := by
      rw [unread, readableLen, empty, Nat.add_sub_cancel_left]
      rfl
    rw [nothing]
    exact iff_of_false (fun both => both.2 empty) fun both => both.1 rfl
  · rw [unread_eq inRing empty, show (con.w + 127) % 128 = con.w - 1 by omega]
    simp [last, notStart, empty]

theorem inRange_iff {new old : List Access} :
    (∃ other, new ++ old = other ++ old ∧ ∀ access ∈ other, access.InRange) ↔
      ∀ access ∈ new, access.InRange := by
  constructor
  · rintro ⟨other, same, all⟩
    rwa [append_cancel_right same]
  · exact fun all => ⟨new, rfl, all⟩

/-- Backspace edits the line only, if and only if `w` is not at the start of the ring and a
space stored at `w` does not move it there. -/
theorem editsLine_iff (inRing : con.InRing) (closed : con.tflag = false) :
    con.EditsLine ↔ con.w ≠ 0 ∧
      ¬ (con.w = 127 ∧ con.r ≠ 0 ∧ (con.r = 127 ∨ con.buf 126 = 10)) := by
  have rRange := inRing.r
  have wRange := inRing.w
  have isPlace := place inRing
  have bound := con.readableLen_lt
  have start : ∀ {new : List Access}, (∀ access ∈ new, access.InRange) → .buf (con.w - 1) ∈ new →
      con.w ≠ 0 := by
    intro new all isNew
    have first := (all _ isNew).1
    omega
  by_cases deletes : con.last ≠ 10 ∧ con.w ≠ con.r
  · have after := backspace_deletes inRing closed deletes
    constructor
    · rintro ⟨inRange, _⟩
      rw [after, inRange_iff] at inRange
      refine ⟨start inRange (by simp), ?_⟩
      rintro ⟨atEnd, _, atR | newline⟩
      · exact deletes.2 (atEnd.trans atR.symm)
      · exact deletes.1 (by rw [last, if_neg (by omega), atEnd]; exact newline)
    · rintro ⟨notStart, _⟩
      have cell : (con.r + (con.readableLen - 1)) % 128 = (con.w + 127) % 128 := by
        have := deletes.2
        rw [readableLen, CONSOLE_BUFFER_SIZE] at isPlace ⊢
        omega
      have count : ((con.w + 127) % 128 + 128 - con.r) % 128 = con.readableLen - 1 := by
        have := deletes.2
        rw [readableLen, CONSOLE_BUFFER_SIZE]
        omega
      refine ⟨?_, by rw [after], ?_⟩
      · rw [after, inRange_iff]
        simp only [forall_mem_cons, Access.InRange]
        refine ⟨⟨by omega, by omega⟩, ⟨by omega, by omega⟩, ⟨by omega, by omega⟩, by simp⟩
      · rw [if_pos ((deletes_iff inRing notStart).mp deletes), after, unread_eq inRing deletes.2,
          dropLast_concat, ← Ring.window_store_behind con.buf 32
            (show con.readableLen - 1 < 128 by omega), cell, ← count]
        rfl
  · have after := backspace_keeps inRing closed deletes
    have noLine : con.w ≠ 0 → ¬ (con.unread ≠ [] ∧ con.unread.getLast? ≠ some 10) :=
      fun notStart line => deletes ((deletes_iff inRing notStart).mpr line)
    by_cases room : con.isfull = false
    · rw [if_pos room] at after
      have apart := isfull_eq_false.mp room
      constructor
      · rintro ⟨inRange, _⟩
        rw [after, inRange_iff] at inRange
        refine ⟨start inRange (by simp), ?_⟩
        rintro ⟨atEnd, _⟩
        have first := (inRange (.buf (((con.w + 1) % 128 : Nat) - 1)) (by simp)).1
        omega
      · rintro ⟨notStart, notEnd⟩
        have keepsEnd : con.w ≠ 127 := by
          intro atEnd
          refine notEnd ⟨atEnd, by omega, ?_⟩
          by_contra neither
          rw [not_or] at neither
          refine deletes ⟨?_, by omega⟩
          rw [last, if_neg notStart, atEnd]
          exact neither.2
        refine ⟨?_, by rw [after], ?_⟩
        · rw [after, inRange_iff]
          simp only [forall_mem_cons, Access.InRange]
          refine ⟨⟨by omega, by omega⟩, ⟨by omega, by omega⟩, ⟨by omega, by omega⟩, by simp⟩
        · rw [if_neg (noLine notStart), after]
          have same := @Ring.window_store_behind _ 128 con.r _ con.buf 32 bound
          rw [isPlace] at same
          exact ⟨rfl, same⟩
    · rw [if_neg room] at after
      constructor
      · rintro ⟨inRange, _⟩
        rw [after, inRange_iff] at inRange
        refine ⟨start inRange (by simp), ?_⟩
        rintro ⟨atEnd, notZero, _⟩
        exact room (isfull_eq_false.mpr (by omega))
      · rintro ⟨notStart, _⟩
        refine ⟨?_, by rw [after], ?_⟩
        · rw [after, inRange_iff]
          simp only [forall_mem_cons, Access.InRange]
          refine ⟨⟨by omega, by omega⟩, ⟨by omega, by omega⟩, by simp⟩
        · rw [if_neg (noLine notStart), after]
          exact ⟨rfl, rfl⟩

theorem editsLine_threeBytes : ({ initial with w := 3 } : Console).EditsLine :=
  (@editsLine_iff { initial with w := 3 } ⟨by decide, by decide⟩ rfl).mpr ⟨by decide, by decide⟩

theorem backspace_newline :
    let con : Console := { initial with r := 126, buf := fun _ => 10 }
    con.InRing ∧ con.tflag = false ∧ .buf (-1) ∈ (con.doConsoleIrq 127).accesses ∧
      con.unread = [10, 10] ∧ (con.doConsoleIrq 127).unread = [10] := by
  refine ⟨⟨by decide, by decide⟩, rfl, by decide, by decide, by decide⟩

/-! ## Escape sequences -/

/-- The accesses to `tb` were within the array, and the indices of the ring are in range. -/
structure TbSafe (con : Console) : Prop where
  tb : ∀ index, .tb index ∈ con.accesses → Access.InRange (.tb index)
  inRing : con.InRing

def run (input : List UInt8) : Console := input.foldl doConsoleIrq initial

def putcs (ch : UInt8) : Nat :=
  if ch = 127 then 3
  else if ch = 27 ∨ ch = 13 ∨ ch = 10 ∨ (32 ≤ ch ∧ ch ≤ 126) ∨ ch = 4 then 1 else 0

/-- `tb` holds the open escape sequence. -/
structure Collects (con : Console) : Prop where
  atMost : con.i ≤ 8
  closed : con.tflag = false → con.i = 0

theorem resetTb_collects (con : Console) : con.resetTb.Collects := ⟨Nat.zero_le _, fun _ => rfl⟩

theorem tryTransfer_cases (con : Console) :
    con.tryTransfer = con.access (.tb (con.i - 1)) ∨
      con.tryTransfer = (con.access (.tb (con.i - 1))).resetTb := by
  rw [tryTransfer]
  split
  · exact .inl rfl
  · split
    · exact .inr rfl
    · split
      · exact .inr rfl
      · exact .inl rfl

variable {after : Console}

theorem tbSafe_iff (safe : con.TbSafe) (inRing : after.InRing) {new : List Access}
    (same : after.accesses = new ++ con.accesses) :
    after.TbSafe ↔ ∀ index, .tb index ∈ new → Access.InRange (.tb index) := by
  constructor
  · intro afterSafe index isNew
    exact afterSafe.tb index (by rw [same]; exact mem_append_left _ isNew)
  · refine fun all => ⟨fun index isAccess => ?_, inRing⟩
    rw [same] at isAccess
    rcases mem_append.mp isAccess with isNew | isOld
    · exact all index isNew
    · exact safe.tb index isOld

theorem tbSafe_consolePutc (safe : con.TbSafe) (collects : con.Collects) (ch : UInt8) :
    ((con.consolePutc ch).TbSafe ↔ (con.tflag = true → con.i < 8)) ∧
      ((con.consolePutc ch).TbSafe → (con.consolePutc ch).Collects) := by
  have atMost := collects.atMost
  have mod : ∀ n, n % 128 < 128 := fun n => Nat.mod_lt n (by decide)
  by_cases closed : con.tflag = false
  · -- Outside of a sequence only `ESC` is stored in `tb`, at its start.
    have first := collects.closed closed
    rw [iff_true_right (fun isOpen => absurd isOpen (by rw [closed]; decide)), consolePutc,
      if_pos closed]
    have kept : ∀ {after : Console} {index}, after.InRing →
        after.accesses = .buf index :: con.accesses → after.TbSafe := fun {after index} inRing same =>
      (@tbSafe_iff con after safe inRing [.buf index] same).mpr (by simp)
    split
    case isTrue =>
      dsimp only
      split
      case isTrue => exact ⟨kept ⟨safe.inRing.r, mod _⟩ rfl, fun _ => ⟨atMost, collects.closed⟩⟩
      case isFalse => exact ⟨kept ⟨safe.inRing.r, safe.inRing.w⟩ rfl,
        fun _ => ⟨atMost, collects.closed⟩⟩
    case isFalse =>
      split
      case isTrue =>
        refine ⟨(@tbSafe_iff con { con.putTb 27 with tflag := true } safe
          ⟨safe.inRing.r, safe.inRing.w⟩ [.tb con.i] rfl).mpr ?_,
          fun _ => ⟨?_, fun isClosed => by cases isClosed⟩⟩
        · simp [Access.InRange, first]
        · simp only [putTb, first]
          decide
      case isFalse =>
        split
        case isTrue => exact ⟨kept ⟨safe.inRing.r, mod _⟩ rfl, fun _ => ⟨atMost, collects.closed⟩⟩
        case isFalse => exact ⟨safe, fun _ => collects⟩
  · rw [consolePutc, if_neg closed]
    rw [Bool.not_eq_false] at closed
    have next : (con.putTb ch).i = con.i + 1 := Nat.mod_eq_of_lt (by omega)
    have stored : ((con.putTb ch).access (.tb ((con.putTb ch).i - 1))).accesses =
        [.tb con.i, .tb con.i] ++ con.accesses := by
      rw [next]
      simp [access, putTb]
    have room : ∀ {after : Console}, after.accesses = [.tb con.i, .tb con.i] ++ con.accesses →
        after.InRing → (after.TbSafe ↔ (con.tflag = true → con.i < 8)) := by
      intro after same inRing
      rw [tbSafe_iff safe inRing same]
      simp only [mem_cons, Access.tb.injEq, not_mem_nil, or_false, or_self, forall_eq,
        Access.InRange, closed, forall_true_left]
      omega
    rcases (con.putTb ch).tryTransfer_cases with same | same
    · rw [same]
      have iff := room stored ⟨safe.inRing.r, safe.inRing.w⟩
      refine ⟨iff, fun afterSafe => ⟨?_, fun isClosed => ?_⟩⟩
      · have less := iff.mp afterSafe closed
        show (con.putTb ch).i ≤ 8
        omega
      · have isOpen : (con.putTb ch).tflag = con.tflag := rfl
        exact absurd (isOpen.symm.trans isClosed) (by rw [closed]; decide)
    · rw [same]
      exact ⟨@room ((con.putTb ch).access _).resetTb stored ⟨safe.inRing.r, safe.inRing.w⟩,
        fun _ => resetTb_collects _⟩

theorem consolePutc_open (isOpen : con.tflag = true) (collects : con.Collects) {ch : UInt8}
    (goesOn : ch = 8 ∨ ch = 32) :
    (con.consolePutc ch).tflag = true ∧ (con.consolePutc ch).i = con.i + 1 := by
  have atMost := collects.atMost
  have next : (con.putTb ch).i = con.i + 1 := Nat.mod_eq_of_lt (by omega)
  have stored : (con.putTb ch).tb ((con.putTb ch).i - 1) = ch := by
    rw [next, Nat.add_sub_cancel]
    exact update_self _ _ _
  rw [consolePutc, if_neg (by rw [isOpen]; decide), tryTransfer]
  simp only [stored]
  rcases goesOn with rfl | rfl
  · rw [if_neg (by decide), if_neg (by decide), if_neg (by decide)]
    exact ⟨isOpen, next⟩
  · rw [if_neg (by decide), if_neg (by decide), if_neg (by decide)]
    exact ⟨isOpen, next⟩

/-- No access is forgotten, and the indices stay in range. -/
structure GoesOn (con after : Console) : Prop where
  accesses : con.accesses <:+ after.accesses
  inRing : con.InRing → after.InRing

theorem GoesOn.trans {middle : Console} (first : con.GoesOn middle) (second : middle.GoesOn after) :
    con.GoesOn after :=
  ⟨first.accesses.trans second.accesses, second.inRing ∘ first.inRing⟩

theorem GoesOn.tbSafe (goesOn : con.GoesOn after) (inRing : con.InRing) (safe : after.TbSafe) :
    con.TbSafe :=
  ⟨fun index isAccess => safe.tb index (goesOn.accesses.subset isAccess), inRing⟩

section
variable (con : Console)

theorem goesOn_consolePutc (ch : UInt8) : con.GoesOn (con.consolePutc ch) := by
  have mod : ∀ n, n % 128 < 128 := fun n => Nat.mod_lt n (by decide)
  rw [consolePutc]
  split
  · split
    · dsimp only
      split
      · exact ⟨suffix_cons _ _, fun inRing => ⟨inRing.r, mod _⟩⟩
      · exact ⟨suffix_cons _ _, fun inRing => ⟨inRing.r, inRing.w⟩⟩
    · split
      · exact ⟨suffix_cons _ _, fun inRing => ⟨inRing.r, inRing.w⟩⟩
      · split
        · exact ⟨suffix_cons _ _, fun inRing => ⟨inRing.r, mod _⟩⟩
        · exact ⟨suffix_refl _, id⟩
  · have both : ∀ index : Int, con.accesses <:+ .tb index :: .tb con.i :: con.accesses :=
      fun _ => (suffix_cons _ _).trans (suffix_cons _ _)
    rcases (con.putTb ch).tryTransfer_cases with same | same <;> rw [same]
    · exact ⟨both _, fun inRing => ⟨inRing.r, inRing.w⟩⟩
    · exact ⟨both _, fun inRing => ⟨inRing.r, inRing.w⟩⟩

theorem doConsoleIrq_cases (ch : UInt8) :
    (putcs ch = 1 ∧ ∃ byte, con.doConsoleIrq ch = con.consolePutc byte) ∨ (putcs ch = 3 ∧
      con.doConsoleIrq ch = ((con.consolePutc 8).consolePutc 32).consolePutc 8) ∨
    (putcs ch = 0 ∧ (con.doConsoleIrq ch = con ∨ con.doConsoleIrq ch = con.cleanConsole)) := by
  by_cases escape : ch = 27
  · subst escape
    exact .inl ⟨rfl, 27, rfl⟩
  by_cases back : ch = 127
  · subst back
    exact .inr (.inl ⟨rfl, rfl⟩)
  have calls : putcs ch = if ch = 27 ∨ ch = 13 ∨ ch = 10 ∨ (32 ≤ ch ∧ ch ≤ 126) ∨ ch = 4 then 1
      else 0 := if_neg back
  rw [doConsoleIrq, if_neg escape, if_neg back]
  split
  case isTrue => exact .inl ⟨calls.trans (if_pos (by tauto)), 10, rfl⟩
  case isFalse =>
    split
    case isTrue => exact .inl ⟨calls.trans (if_pos (by tauto)), ch, rfl⟩
    case isFalse =>
      split
      case isTrue clean =>
        subst clean
        exact .inr (.inr ⟨rfl, .inr rfl⟩)
      case isFalse =>
        split
        case isTrue => exact .inl ⟨calls.trans (if_pos (by tauto)), 4, rfl⟩
        case isFalse => exact .inr (.inr ⟨calls.trans (if_neg (by tauto)), .inl rfl⟩)

theorem inRing_cleanConsole : con.cleanConsole.InRing :=
  ⟨Nat.succ_pos 127, Nat.succ_pos 127⟩

theorem goesOn_doConsoleIrq (ch : UInt8) : con.GoesOn (con.doConsoleIrq ch) := by
  rcases con.doConsoleIrq_cases ch with ⟨_, byte, same⟩ | ⟨_, same⟩ | ⟨_, same | same⟩ <;> rw [same]
  · exact con.goesOn_consolePutc byte
  · exact ((con.goesOn_consolePutc 8).trans (goesOn_consolePutc _ 32)).trans (goesOn_consolePutc _ 8)
  · exact ⟨suffix_refl _, id⟩
  · exact ⟨suffix_refl _, fun _ => inRing_cleanConsole con⟩

end

theorem tbSafe_doConsoleIrq (safe : con.TbSafe) (collects : con.Collects) (ch : UInt8) :
    ((con.doConsoleIrq ch).TbSafe ↔ (con.tflag = true → con.i + putcs ch ≤ 8)) ∧
      ((con.doConsoleIrq ch).TbSafe → (con.doConsoleIrq ch).Collects) := by
  rcases con.doConsoleIrq_cases ch with ⟨calls, byte, same⟩ | ⟨calls, same⟩ | ⟨calls, same | same⟩ <;>
    rw [same, calls]
  · exact tbSafe_consolePutc safe collects byte
  · have first := tbSafe_consolePutc safe collects 8
    have firstOn := con.goesOn_consolePutc 8
    have secondOn := (con.consolePutc 8).goesOn_consolePutc 32
    have thirdOn := ((con.consolePutc 8).consolePutc 32).goesOn_consolePutc 8
    have secondRing := secondOn.inRing (firstOn.inRing safe.inRing)
    have back : (((con.consolePutc 8).consolePutc 32).consolePutc 8).TbSafe →
        ((con.consolePutc 8).consolePutc 32).TbSafe ∧ (con.consolePutc 8).TbSafe := by
      intro thirdSafe
      have secondSafe := thirdOn.tbSafe secondRing thirdSafe
      exact ⟨secondSafe, secondOn.tbSafe (firstOn.inRing safe.inRing) secondSafe⟩
    have second := fun firstSafe => tbSafe_consolePutc firstSafe (first.2 firstSafe) 32
    have third := fun firstSafe secondSafe =>
      tbSafe_consolePutc secondSafe ((second firstSafe).2 secondSafe) 8
    refine ⟨?_, fun thirdSafe => (third (back thirdSafe).2 (back thirdSafe).1).2 thirdSafe⟩
    by_cases isOpen : con.tflag = true
    · have firstOpen := consolePutc_open isOpen collects (.inl rfl)
      have secondOpen := fun firstSafe =>
        consolePutc_open firstOpen.1 (first.2 firstSafe) (.inr rfl)
      rw [forall_prop_of_true isOpen]
      constructor
      · intro thirdSafe
        rcases back thirdSafe with ⟨secondSafe, firstSafe⟩
        have less := (third firstSafe secondSafe).1.mp thirdSafe (secondOpen firstSafe).1
        rw [(secondOpen firstSafe).2, firstOpen.2] at less
        omega
      · intro room
        have firstSafe := first.1.mpr fun _ => by omega
        have secondSafe := (second firstSafe).1.mpr fun _ => by rw [firstOpen.2]; omega
        refine (third firstSafe secondSafe).1.mpr fun _ => ?_
        rw [(secondOpen firstSafe).2, firstOpen.2]
        omega
    · have closed : con.tflag = false := by rwa [Bool.not_eq_true] at isOpen
      have firstClosed : (con.consolePutc 8).tflag = false := by
        rw [consolePutc_backspace closed]
        exact closed
      have secondClosed : ((con.consolePutc 8).consolePutc 32).tflag = false := by
        rw [consolePutc_space firstClosed]
        split <;> exact firstClosed
      have firstSafe := first.1.mpr fun opened => absurd opened isOpen
      have secondSafe := (second firstSafe).1.mpr fun opened => by
        rw [firstClosed] at opened
        cases opened
      refine iff_of_true ((third firstSafe secondSafe).1.mpr fun opened => ?_)
        fun opened => absurd opened isOpen
      rw [secondClosed] at opened
      cases opened
  · exact ⟨iff_of_true safe fun _ => collects.atMost, fun _ => collects⟩
  · exact ⟨iff_of_true ⟨safe.tb, inRing_cleanConsole con⟩ fun _ => collects.atMost,
      fun _ => ⟨Nat.zero_le _, fun _ => rfl⟩⟩

variable (input : List UInt8)

theorem run_concat (ch : UInt8) :
    run (input ++ [ch]) = (run input).doConsoleIrq ch := foldl_concat _ _ _ _

theorem inRing_run : (run input).InRing := by
  induction input using List.reverseRecOn with
  | nil => exact ⟨by decide, by decide⟩
  | append_singleton input ch induction =>
    rw [run_concat]
    exact (goesOn_doConsoleIrq _ ch).inRing induction

theorem collects_run : (run input).TbSafe → (run input).Collects := by
  induction input using List.reverseRecOn with
  | nil => exact fun _ => ⟨by decide, fun _ => rfl⟩
  | append_singleton input ch induction =>
    intro safe
    rw [run_concat] at safe ⊢
    have before := (goesOn_doConsoleIrq _ ch).tbSafe (inRing_run input) safe
    exact (tbSafe_doConsoleIrq before (induction before) ch).2 safe

/-- Escape sequences stay within `tb` and the indices of the ring in range, if and only if no
character finds less room in `tb` than it needs in an open sequence. -/
theorem tbSafe_run_iff (input : List UInt8) : (run input).TbSafe ↔
    ∀ front ch back, input = front ++ ch :: back → (run front).tflag = true →
      (run front).i + putcs ch ≤ 8 := by
  induction input using List.reverseRecOn with
  | nil =>
    refine iff_of_true ⟨?_, inRing_run []⟩ fun front ch back same => ?_
    · exact fun _ isAccess => absurd isAccess not_mem_nil
    · exact absurd same (by simp)
  | append_singleton input ch induction =>
    rw [run_concat]
    constructor
    · intro safe front byte back same
      have before := (goesOn_doConsoleIrq _ ch).tbSafe (inRing_run input) safe
      rcases eq_nil_or_concat back with rfl | ⟨more, lastByte, rfl⟩
      · obtain ⟨rfl, last⟩ := append_inj' same rfl
        obtain rfl := (List.cons.inj last).1
        exact (tbSafe_doConsoleIrq before (collects_run _ before) ch).1.mp safe
      · rw [concat_eq_append, ← cons_append, ← append_assoc] at same
        exact induction.mp before front byte more (append_inj' same rfl).1
    · intro room
      have before := induction.mpr fun front byte back same => room front byte (back ++ [ch])
        (by rw [same, append_assoc]; rfl)
      exact (tbSafe_doConsoleIrq before (collects_run _ before) ch).1.mpr
        (room input ch [] rfl)

/-- `ESC [` and seven digits are one character too many. -/
theorem escape_overruns : ¬ (run ([27, 91] ++ List.replicate 7 49)).TbSafe := by
  intro safe
  exact absurd (safe.tb 8 (by decide)) (by decide)

end Console
end Tnix.Dev
