import Mathlib.Logic.Function.Basic

/-! # Labelled machines

A machine moves by labels, which resolve every choice of a step. A step is `none` when the label
is not enabled or when the step stops the machine. -/

namespace Tnix

universe u v

structure Machine (State : Type u) (Label : Type v) where
  Initial : State → Prop
  step : State → Label → Option State

namespace Machine

variable {State : Type u} {Label : Type v} {machine : Machine State Label}

def run (machine : Machine State Label) : State → List Label → Option State
  | state, [] => some state
  | state, label :: rest =>
    (machine.step state label).bind fun next => machine.run next rest

/-- The states reached by steps that all meet a condition on the state before
the step and its label. -/
inductive Reaches (machine : Machine State Label)
    (Allowed : State → Label → Prop) : State → Prop
  | initial {state : State} : machine.Initial state → Reaches machine Allowed state
  | step {state next : State} {label : Label} :
      Reaches machine Allowed state → Allowed state label →
      machine.step state label = some next → Reaches machine Allowed next

abbrev Reachable (machine : Machine State Label) : State → Prop :=
  machine.Reaches fun _ _ => True

variable {Allowed : State → Label → Prop} {state : State}

theorem Reaches.invariant (Invariant : State → Prop)
    (start : ∀ state, machine.Initial state → Invariant state)
    (preserved : ∀ state label next, Invariant state → Allowed state label →
      machine.step state label = some next → Invariant next)
    (reached : machine.Reaches Allowed state) :
    Invariant state := by
  induction reached with
  | initial isInitial => exact start _ isInitial
  | step _ allowed stepped holds => exact preserved _ _ _ holds allowed stepped

/-- Every label of a run meets the condition in the state it is taken from. -/
def Allows (machine : Machine State Label) (Allowed : State → Label → Prop) :
    State → List Label → Prop
  | _, [] => True
  | state, label :: rest => Allowed state label ∧
      match machine.step state label with
      | some next => machine.Allows Allowed next rest
      | none => True

instance Allows.decidable (machine : Machine State Label)
    (Allowed : State → Label → Prop) [∀ state label, Decidable (Allowed state label)] :
    ∀ state labels, Decidable (machine.Allows Allowed state labels)
  | _, [] => .isTrue trivial
  | _, _ :: rest =>
    have (found : Option State) : Decidable (match found with
        | some next => machine.Allows Allowed next rest
        | none => True) :=
      match found with
      | some next => Allows.decidable machine Allowed next rest
      | none => .isTrue trivial
    inferInstanceAs (Decidable (_ ∧ _))

theorem Reaches.run (reached : machine.Reaches Allowed state) :
    ∀ {labels : List Label} {final : State}, machine.Allows Allowed state labels →
      machine.run state labels = some final → machine.Reaches Allowed final := by
  intro labels
  induction labels generalizing state with
  | nil =>
    intro final _ ran
    cases ran
    exact reached
  | cons label rest induction =>
    intro final allowed ran
    rcases Option.bind_eq_some_iff.mp ran with ⟨next, stepped, ran⟩
    have rest := allowed.2
    rw [stepped] at rest
    exact induction (.step reached allowed.1 stepped) rest ran

theorem Reachable.run {final : State} {labels : List Label} (reached : machine.Reachable state)
    (ran : machine.run state labels = some final) : machine.Reachable final := by
  refine Reaches.run reached ?_ ran
  clear ran reached
  induction labels generalizing state with
  | nil => trivial
  | cons label rest induction =>
    refine ⟨trivial, ?_⟩
    split
    · exact induction
    · trivial

end Machine
end Tnix
