import Tnix.Foundation.Machine
import Mathlib.Data.Finset.Card

/-! # `spinlock.c`

The interrupts of one CPU, called `mycpu` here. Other CPUs take and release locks in between;
code outside of critical sections sets the enable bit. -/

namespace Tnix.Util

open Function

/-- The fields of `struct cpu` for interrupts, and the enable bit of the hardware. -/
structure CpuIntr where
  rawIntr : Bool
  spinlevel : UInt8
  intr : Bool
deriving DecidableEq

def pushIntr (c : CpuIntr) : CpuIntr where
  rawIntr := if c.spinlevel = 0 then c.intr else c.rawIntr
  spinlevel := c.spinlevel + 1
  intr := false

def popIntr (c : CpuIntr) : CpuIntr where
  rawIntr := c.rawIntr
  spinlevel := c.spinlevel - 1
  intr := if c.spinlevel - 1 = 0 ∧ c.rawIntr = true then true else c.intr

structure Spinlock (Cpu : Type) where
  locked : Bool
  cpu : Option Cpu
deriving DecidableEq

structure SpinState (Cpu Lock : Type) where
  own : CpuIntr
  locks : Lock → Spinlock Cpu

inductive SpinLabel (Cpu Lock : Type)
  | get (lock : Lock)
  | put (lock : Lock)
  | others (lock : Lock) (value : Spinlock Cpu)
  | setIntr (enabled : Bool)

section
variable {Cpu Lock : Type} [DecidableEq Cpu] [DecidableEq Lock]

def spinHolding (mycpu : Cpu) (lock : Spinlock Cpu) : Prop :=
  lock.locked = true ∧ lock.cpu = some mycpu

instance (mycpu : Cpu) (lock : Spinlock Cpu) : Decidable (spinHolding mycpu lock) :=
  inferInstanceAs (Decidable (_ ∧ _))

/-- `none` is the panic, or the turns of the loop while another CPU has the lock. -/
def spinGet (mycpu : Cpu) (state : SpinState Cpu Lock) (lock : Lock) :
    Option (SpinState Cpu Lock) :=
  if ¬spinHolding mycpu (state.locks lock) ∧ (state.locks lock).locked = false then
    some ⟨pushIntr state.own, update state.locks lock ⟨true, some mycpu⟩⟩
  else none

def spinPut (mycpu : Cpu) (state : SpinState Cpu Lock) (lock : Lock) :
    Option (SpinState Cpu Lock) :=
  if spinHolding mycpu (state.locks lock) then
    some ⟨popIntr state.own, update state.locks lock ⟨false, none⟩⟩
  else none

def spinStep (mycpu : Cpu) (state : SpinState Cpu Lock) :
    SpinLabel Cpu Lock → Option (SpinState Cpu Lock)
  | .get lock => spinGet mycpu state lock
  | .put lock => spinPut mycpu state lock
  | .others lock value =>
    if ¬spinHolding mycpu (state.locks lock) ∧ ¬spinHolding mycpu value then
      some { state with locks := update state.locks lock value }
    else none
  | .setIntr enabled =>
    if state.own.spinlevel = 0 then
      some { state with own := { state.own with intr := enabled } }
    else none

/-! ## The locks that are held -/

/-- `held` are the locks that the calls of `mycpu` have taken and not released. -/
structure SpinCalls (Cpu Lock : Type) extends SpinState Cpu Lock where
  held : Finset Lock

def SpinLabel.heldAfter (held : Finset Lock) : SpinLabel Cpu Lock → Finset Lock
  | .get lock => insert lock held
  | .put lock => held.erase lock
  | _ => held

def spinCall (mycpu : Cpu) (calls : SpinCalls Cpu Lock) (label : SpinLabel Cpu Lock) :
    Option (SpinCalls Cpu Lock) :=
  (spinStep mycpu calls.toSpinState label).map fun state => ⟨state, label.heldAfter calls.held⟩

def spinMachine (Lock : Type) [DecidableEq Lock] (mycpu : Cpu) :
    Machine (SpinCalls Cpu Lock) (SpinLabel Cpu Lock) where
  Initial := fun calls => (∀ lock, ¬spinHolding mycpu (calls.locks lock)) ∧
    calls.own.spinlevel = 0 ∧ calls.held = ∅
  step := spinCall mycpu

/-- `spin_get` is for a lock that is not held, while fewer than 255 are, and `spin_put` for one
that is held. -/
def Disciplined (calls : SpinCalls Cpu Lock) : SpinLabel Cpu Lock → Prop
  | .get lock => lock ∉ calls.held ∧ calls.held.card < 255
  | .put lock => lock ∈ calls.held
  | _ => True

instance (calls : SpinCalls Cpu Lock) : ∀ label, Decidable (Disciplined calls label)
  | .get _ => inferInstanceAs (Decidable (_ ∧ _))
  | .put _ => inferInstanceAs (Decidable (_ ∈ _))
  | .others _ _ | .setIntr _ => .isTrue trivial

variable {mycpu : Cpu} {calls next entry : SpinCalls Cpu Lock} {lock : Lock}
  {label : SpinLabel Cpu Lock} {state : SpinState Cpu Lock} {saved : Bool}

/-- The lock words agree with the calls, the level counts the locks, and `raw_intr` is the saved
bit while there are any. -/
structure Nested (mycpu : Cpu) (saved : Bool) (calls : SpinCalls Cpu Lock) : Prop where
  holding : ∀ lock, spinHolding mycpu (calls.locks lock) ↔ lock ∈ calls.held
  level : calls.own.spinlevel.toNat = calls.held.card
  disabled : calls.held.Nonempty → calls.own.intr = false
  raw : calls.held.Nonempty → calls.own.rawIntr = saved

omit [DecidableEq Cpu] [DecidableEq Lock] in
theorem Nested.level_zero (nested : Nested mycpu saved calls) :
    calls.own.spinlevel = 0 ↔ calls.held = ∅ := by
  rw [← UInt8.toNat_inj, nested.level, UInt8.toNat_zero, Finset.card_eq_zero]

section
variable (nested : Nested mycpu saved calls)
include nested

theorem Nested.get (few : calls.held.card < 255) (free : lock ∉ calls.held)
    (stepped : spinGet mycpu calls.toSpinState lock = some state) :
    Nested mycpu (if calls.own.spinlevel = 0 then calls.own.intr else saved)
      ⟨state, insert lock calls.held⟩ := by
  rcases Option.ite_none_right_eq_some.mp stepped with ⟨_, ⟨⟩⟩
  refine ⟨fun other => ?_, ?_, fun _ => rfl, fun _ => ?_⟩
  · by_cases same : other = lock
    · simp [same, spinHolding]
    · simpa [same] using nested.holding other
  · have level := nested.level
    rw [Finset.card_insert_of_notMem free, ← level]
    simp only [pushIntr, UInt8.toNat_add, UInt8.toNat_one]
    omega
  · simp only [pushIntr]
    split
    case isTrue => rfl
    case isFalse some =>
      exact nested.raw (Finset.nonempty_iff_ne_empty.mpr (mt nested.level_zero.mpr some))

theorem Nested.put (holding : lock ∈ calls.held)
    (stepped : spinPut mycpu calls.toSpinState lock = some state) :
    Nested mycpu saved ⟨state, calls.held.erase lock⟩ ∧
      (calls.held.erase lock = ∅ → state.own.intr = saved) := by
  rcases Option.ite_none_right_eq_some.mp stepped with ⟨_, ⟨⟩⟩
  have count := Finset.card_erase_add_one holding
  have level : (calls.own.spinlevel - 1).toNat = (calls.held.erase lock).card := by
    have before := nested.level
    rw [UInt8.toNat_sub_of_le _ _ (by rw [UInt8.le_iff_toNat_le, UInt8.toNat_one]; omega),
      UInt8.toNat_one]
    omega
  have zero : calls.own.spinlevel - 1 = 0 ↔ calls.held.erase lock = ∅ := by
    rw [← UInt8.toNat_inj, level, UInt8.toNat_zero, Finset.card_eq_zero]
  have disabled := nested.disabled ⟨lock, holding⟩
  have raw := nested.raw ⟨lock, holding⟩
  refine ⟨⟨fun other => ?_, level, fun others => ?_, fun _ => raw⟩, fun last => ?_⟩
  · by_cases same : other = lock
    · simp [same, spinHolding]
    · simpa [same] using nested.holding other
  · simp only [popIntr, zero, others.ne_empty, false_and, if_false, disabled]
  · cases saved <;> simp [popIntr, zero, last, raw, disabled]

theorem Nested.step (disciplined : Disciplined calls label)
    (stepped : spinCall mycpu calls label = some next) :
    Nested mycpu (if calls.own.spinlevel = 0 then calls.own.intr else saved) next ∧
      (calls.held.Nonempty → next.held = ∅ → next.own.intr = saved) := by
  rcases Option.map_eq_some_iff.mp stepped with ⟨state, taken, rfl⟩
  cases label with
  | get lock =>
    refine ⟨nested.get disciplined.2 disciplined.1 taken, fun _ none => ?_⟩
    exact absurd none (Finset.insert_ne_empty _ _)
  | put lock =>
    have some : calls.held ≠ ∅ := Finset.ne_empty_of_mem disciplined
    rw [if_neg (mt nested.level_zero.mp some)]
    exact ⟨(nested.put disciplined taken).1, fun _ => (nested.put disciplined taken).2⟩
  | others lock value =>
    rcases Option.ite_none_right_eq_some.mp taken with ⟨⟨free, stays⟩, ⟨⟩⟩
    refine ⟨⟨fun other => ?_, nested.level, nested.disabled, fun some => ?_⟩, fun some none => ?_⟩
    · by_cases same : other = lock
      · subst same
        simpa [stays, SpinLabel.heldAfter] using mt (nested.holding other).mpr free
      · simpa [same, SpinLabel.heldAfter] using nested.holding other
    · rw [if_neg (mt nested.level_zero.mp some.ne_empty)]
      exact nested.raw some
    · exact absurd none some.ne_empty
  | setIntr enabled =>
    rcases Option.ite_none_right_eq_some.mp taken with ⟨zero, ⟨⟩⟩
    have none := nested.level_zero.mp zero
    exact ⟨⟨nested.holding, nested.level, fun some => absurd none some.ne_empty,
      fun some => absurd none some.ne_empty⟩, fun some => absurd none some.ne_empty⟩

end

/-! ## Runs -/

/-- The states after the first acquisition in `entry`, up to the one that follows the
release of the last lock. -/
inductive CriticalSection (mycpu : Cpu) (entry : SpinCalls Cpu Lock) : SpinCalls Cpu Lock → Prop
  | enter {lock : Lock} {next : SpinCalls Cpu Lock} : entry.held = ∅ →
      spinCall mycpu entry (.get lock) = some next → CriticalSection mycpu entry next
  | step {calls next : SpinCalls Cpu Lock} {label : SpinLabel Cpu Lock} :
      CriticalSection mycpu entry calls → calls.held.Nonempty → Disciplined calls label →
      spinCall mycpu calls label = some next → CriticalSection mycpu entry next

theorem nested_of_reaches (reached : (spinMachine Lock mycpu).Reaches Disciplined calls) :
    ∃ saved, Nested mycpu saved calls := by
  refine reached.invariant (fun calls => ∃ saved, Nested mycpu saved calls)
    (fun start initial => ⟨start.own.rawIntr, ?_⟩)
    fun _ _ _ nested disciplined stepped => ⟨_, (nested.choose_spec.step disciplined stepped).1⟩
  rcases initial with ⟨free, zero, none⟩
  refine ⟨fun lock => ?_, ?_, fun some => ?_, fun _ => rfl⟩
  · rw [none]
    exact iff_of_false (free lock) (Finset.notMem_empty lock)
  · rw [none, zero, Finset.card_empty, UInt8.toNat_zero]
  · exact absurd none some.ne_empty

theorem CriticalSection.nested (started : Nested mycpu saved entry)
    (inside : CriticalSection mycpu entry calls) :
    Nested mycpu entry.own.intr calls ∧
      (calls.held = ∅ → calls.own.intr = entry.own.intr) := by
  induction inside with
  | enter none stepped =>
    rcases Option.map_eq_some_iff.mp stepped with ⟨state, taken, rfl⟩
    have after := started.get (by rw [none]; exact Nat.zero_lt_succ _)
      (by rw [none]; exact Finset.notMem_empty _) taken
    rw [if_pos (started.level_zero.mpr none)] at after
    exact ⟨after, fun none => absurd none (Finset.insert_ne_empty _ _)⟩
  | step _ some disciplined stepped induction =>
    have after := induction.1.step disciplined stepped
    rw [if_neg (mt induction.1.level_zero.mp some.ne_empty)] at after
    exact ⟨after.1, after.2 some⟩

/-- The lock words, the level and the enable bit follow the calls, whatever the order of
release. -/
theorem spin_nests (mycpu : Cpu) (calls : SpinCalls Cpu Lock)
    (reached : (spinMachine Lock mycpu).Reaches Disciplined calls) :
    (∀ lock, spinHolding mycpu (calls.locks lock) ↔ lock ∈ calls.held) ∧
    calls.own.spinlevel.toNat = calls.held.card ∧
    (calls.held.Nonempty → calls.own.intr = false) ∧
    ∀ last, CriticalSection mycpu calls last → last.held = ∅ → last.own.intr = calls.own.intr := by
  rcases nested_of_reaches reached with ⟨saved, nested⟩
  exact ⟨nested.holding, nested.level, nested.disabled,
    fun last inside => (inside.nested nested).2⟩

def twoLocks : SpinCalls Unit Bool := ⟨⟨⟨false, 0, true⟩, fun _ => ⟨false, none⟩⟩, ∅⟩

/-- Two locks are taken, and the first one is released first. -/
theorem spin_nests_twoLocks : ∃ calls,
    (spinMachine Bool ()).run twoLocks [.get false, .get true, .put false] = some calls ∧
      calls.held = {true} ∧ calls.own.spinlevel.toNat = 1 ∧ calls.own.intr = false := by
  have initial : (spinMachine Bool ()).Initial twoLocks := ⟨by decide, rfl, rfl⟩
  rcases (⟨_, rfl, by decide⟩ : ∃ calls, (spinMachine Bool ()).run twoLocks
    [.get false, .get true, .put false] = some calls ∧ calls.held = {true}) with ⟨calls, ran, held⟩
  rcases spin_nests () calls (.run (.initial initial) (by decide) ran) with ⟨_, level, disabled, _⟩
  rw [held] at level disabled
  exact ⟨calls, ran, held, level, disabled ⟨true, Finset.mem_singleton_self true⟩⟩

end
end Tnix.Util
