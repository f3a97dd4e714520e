import Mathlib.Logic.Function.Basic

/-! # Programs with a state and faults

A program changes a state and returns a value, or stops with a fault. The rules for the commands
are equivalences, and rewriting with them executes a program symbolically. -/

namespace Tnix

universe u v

/-- A program that changes a state or stops with a fault. -/
abbrev Program (State Fault : Type u) (α : Type u) := StateT State (Except Fault) α

namespace Program

variable {State Fault α β : Type u}

/-- Every outcome that returns meets the postcondition. -/
def Ensures (program : Program State Fault α) (state : State)
    (post : α → State → Prop) : Prop :=
  ∀ result final, program state = .ok (result, final) → post result final

/-- The program returns, and the outcome meets the postcondition. -/
def Yields (program : Program State Fault α) (state : State)
    (post : α → State → Prop) : Prop :=
  ∃ result final, program state = .ok (result, final) ∧ post result final

variable {program : Program State Fault α} {next : α → Program State Fault β}
  {state : State} {post : α → State → Prop} {after : β → State → Prop}

theorem bind_eq : (program >>= next) state = match program state with
    | .error fault => .error fault
    | .ok (result, final) => next result final := by
  simp only [Bind.bind, StateT.bind, Except.bind]
  cases program state <;> rfl

variable {result : α} {final : State}

theorem bind_of_ok (ran : program state = .ok (result, final)) :
    (program >>= next) state = next result final := by
  rw [bind_eq, ran]

/-! ## Partial correctness -/

namespace Ensures

theorem mono {weaker : α → State → Prop} (ensures : Ensures program state post)
    (implies : ∀ result final, post result final → weaker result final) :
    Ensures program state weaker :=
  fun result final ran => implies result final (ensures result final ran)

theorem bind (first : Ensures program state post)
    (second : ∀ result final, post result final → Ensures (next result) final after) :
    Ensures (program >>= next) state after := by
  intro result final ran
  rw [bind_eq] at ran
  cases outcome : program state with
  | error fault =>
    rw [outcome] at ran
    cases ran
  | ok value =>
    rw [outcome] at ran
    exact second value.1 value.2 (first value.1 value.2 outcome) result final ran

theorem and {also : α → State → Prop} (ensures : Ensures program state post)
    (other : Ensures program state also) :
    Ensures program state fun result final => post result final ∧ also result final :=
  fun result final ran => ⟨ensures result final ran, other result final ran⟩

end Ensures

theorem ensures_iff_of_ok (ran : program state = .ok (result, final)) :
    Ensures program state post ↔ post result final := by
  constructor
  · exact fun ensures => ensures result final ran
  · intro holds value after same
    rw [ran] at same
    cases same
    exact holds

theorem ensures_iff_of_cond {condition : Prop}
    (runs : condition → program state = .ok (result, final))
    (stops : ¬ condition → ∃ fault, program state = .error fault) :
    Ensures program state post ↔ (condition → post result final) := by
  by_cases holds : condition
  · rw [ensures_iff_of_ok (runs holds), forall_prop_of_true holds]
  · rcases stops holds with ⟨fault, stopped⟩
    refine iff_of_true ?_ fun isTrue => absurd isTrue holds
    intro result final ran
    rw [stopped] at ran
    cases ran

theorem ensures_bind : Ensures (program >>= next) state after ↔
    Ensures program state fun result final => Ensures (next result) final after := by
  constructor
  · intro ensures value middle ran result final ranNext
    apply ensures
    rw [bind_eq, ran]
    exact ranNext
  · exact fun ensures => ensures.bind fun _ _ second => second

theorem ensures_pure {value : α} :
    Ensures (pure value : Program State Fault α) state post ↔ post value state :=
  ensures_iff_of_ok rfl

variable {fault : Fault}

theorem ensures_throw :
    Ensures (throw fault : Program State Fault α) state post ↔ True := by
  constructor
  · exact fun _ => trivial
  · intro _ result final ran
    cases ran

theorem ensures_get {post : State → State → Prop} :
    Ensures (get : Program State Fault State) state post ↔ post state state :=
  ensures_iff_of_ok rfl

theorem ensures_set {value : State} {post : PUnit → State → Prop} :
    Ensures (set value : Program State Fault PUnit) state post ↔ post ⟨⟩ value :=
  ensures_iff_of_ok rfl

theorem ensures_modify {change : State → State} {post : PUnit → State → Prop} :
    Ensures (modify change : Program State Fault PUnit) state post ↔ post ⟨⟩ (change state) :=
  ensures_iff_of_ok rfl

/-! ## Faults that do not occur -/

/-- The program does not stop with the fault. -/
def Avoids (program : Program State Fault α) (state : State) (fault : Fault) : Prop :=
  program state ≠ .error fault

theorem avoids_bind : Avoids (program >>= next) state fault ↔
    Avoids program state fault ∧
      Ensures program state fun result final => Avoids (next result) final fault := by
  rw [Avoids, Avoids, bind_eq]
  cases outcome : program state with
  | error stopped =>
    constructor
    · intro avoids
      refine ⟨fun same => avoids (by cases same; rfl), ?_⟩
      intro result final ran
      rw [outcome] at ran
      cases ran
    · exact fun both same => both.1 (by cases same; rfl)
  | ok value =>
    constructor
    · intro avoids
      refine ⟨nofun, ?_⟩
      intro result final ran
      rw [outcome] at ran
      cases ran
      exact avoids
    · exact fun both => both.2 value.1 value.2 outcome

/-! ## Frames -/

/-- The program leaves a view of the state as it is. -/
def Keeps {View : Type v} (view : State → View) (program : Program State Fault α) : Prop :=
  ∀ state, Ensures program state fun _ final => view final = view state

namespace Keeps

variable {View : Type v} {view : State → View}

theorem pure {value : α} : Keeps view (Pure.pure value : Program State Fault α) :=
  fun _ => ensures_pure.mpr rfl

theorem throw {fault : Fault} : Keeps view (MonadExcept.throw fault : Program State Fault α) :=
  fun _ => ensures_throw.mpr trivial

theorem get : Keeps view (MonadState.get : Program State Fault State) :=
  fun _ => ensures_get.mpr rfl

theorem bind (first : Keeps view program) (second : ∀ result, Keeps view (next result)) :
    Keeps view (program >>= next) := by
  intro state
  refine (first state).bind ?_
  intro result middle same
  rw [← same]
  exact second result middle

theorem ite {condition : Prop} [Decidable condition] {other : Program State Fault α}
    (first : Keeps view program) (second : Keeps view other) :
    Keeps view (if condition then program else other) := by
  split
  · exact first
  · exact second

end Keeps

/-! ## Total correctness -/

theorem Yields.mono {weaker : α → State → Prop} (yields : Yields program state post)
    (implies : ∀ result final, post result final → weaker result final) :
    Yields program state weaker := by
  rcases yields with ⟨result, final, ran, holds⟩
  exact ⟨result, final, ran, implies result final holds⟩

theorem Yields.ensures {also : α → State → Prop} (yields : Yields program state post)
    (ensures : Ensures program state also) :
    Yields program state fun result final => post result final ∧ also result final := by
  rcases yields with ⟨result, final, ran, holds⟩
  exact ⟨result, final, ran, holds, ensures result final ran⟩

theorem yields_iff_of_ok (ran : program state = .ok (result, final)) :
    Yields program state post ↔ post result final := by
  rw [Yields, ran]
  constructor
  · rintro ⟨value, after, same, holds⟩
    cases same
    exact holds
  · exact fun holds => ⟨result, final, rfl, holds⟩

theorem yields_iff_of_cond {condition : Prop}
    (runs : condition → program state = .ok (result, final))
    (stops : ¬ condition → ∃ fault, program state = .error fault) :
    Yields program state post ↔ condition ∧ post result final := by
  by_cases holds : condition
  · rw [yields_iff_of_ok (runs holds), and_iff_right holds]
  · rcases stops holds with ⟨fault, stopped⟩
    refine iff_of_false ?_ fun both => holds both.1
    rintro ⟨result, final, ran, _⟩
    rw [stopped] at ran
    cases ran

theorem yields_bind : Yields (program >>= next) state after ↔
    Yields program state fun result final => Yields (next result) final after := by
  constructor
  · rintro ⟨result, final, ran, holds⟩
    rw [bind_eq] at ran
    cases outcome : program state with
    | error fault =>
      rw [outcome] at ran
      cases ran
    | ok value =>
      rw [outcome] at ran
      exact ⟨value.1, value.2, outcome, result, final, ran, holds⟩
  · rintro ⟨value, middle, ranFirst, result, final, ranNext, holds⟩
    refine ⟨result, final, ?_, holds⟩
    rw [bind_eq, ranFirst]
    exact ranNext

theorem yields_pure {value : α} :
    Yields (pure value : Program State Fault α) state post ↔ post value state :=
  yields_iff_of_ok rfl

theorem yields_throw :
    Yields (throw fault : Program State Fault α) state post ↔ False := by
  constructor
  · rintro ⟨result, final, ran, _⟩
    cases ran
  · exact False.elim

theorem yields_get {post : State → State → Prop} :
    Yields (get : Program State Fault State) state post ↔ post state state :=
  yields_iff_of_ok rfl

theorem yields_modify {change : State → State} {post : PUnit → State → Prop} :
    Yields (modify change : Program State Fault PUnit) state post ↔ post ⟨⟩ (change state) :=
  yields_iff_of_ok rfl

/-! ## Total correctness up to some faults -/

/-- The program returns and the outcome meets the postcondition, or it stops with a fault
that is excused. -/
def YieldsOr (program : Program State Fault α) (state : State) (excused : Fault → Prop)
    (post : α → State → Prop) : Prop :=
  match program state with
  | .ok (result, final) => post result final
  | .error fault => excused fault

section
variable {excused wider : Fault → Prop}

theorem yieldsOr_of_ok {result : α} {final : State} (ran : program state = .ok (result, final))
    (holds : post result final) : YieldsOr program state excused post := by
  rw [YieldsOr, ran]
  exact holds

theorem yieldsOr_of_error {fault : Fault} (stopped : program state = .error fault)
    (isExcused : excused fault) : YieldsOr program state excused post := by
  rw [YieldsOr, stopped]
  exact isExcused

theorem YieldsOr.mono {weaker : α → State → Prop} (yields : YieldsOr program state excused post)
    (implies : ∀ result final, post result final → weaker result final)
    (widens : ∀ fault, excused fault → wider fault) :
    YieldsOr program state wider weaker := by
  rw [YieldsOr] at yields ⊢
  cases outcome : program state with
  | error fault =>
    rw [outcome] at yields
    exact widens fault yields
  | ok value =>
    rw [outcome] at yields
    exact implies value.1 value.2 yields

theorem YieldsOr.bind (first : YieldsOr program state excused post)
    (second : ∀ result final, post result final → YieldsOr (next result) final excused after) :
    YieldsOr (program >>= next) state excused after := by
  rw [YieldsOr, bind_eq]
  rw [YieldsOr] at first
  cases outcome : program state with
  | error fault =>
    rw [outcome] at first
    exact first
  | ok value =>
    rw [outcome] at first
    exact second value.1 value.2 first

theorem yieldsOr_bind_of_ok {result : α} {final : State} (ran : program state = .ok (result, final))
    (second : YieldsOr (next result) final excused after) :
    YieldsOr (program >>= next) state excused after := by
  rw [YieldsOr, bind_eq, ran]
  exact second

theorem yieldsOr_pure {value : α} (holds : post value state) :
    YieldsOr (pure value : Program State Fault α) state excused post := holds

theorem YieldsOr.ensures (yields : YieldsOr program state excused post) :
    Ensures program state post := by
  intro result final ran
  rw [YieldsOr, ran] at yields
  exact yields

theorem YieldsOr.yields (yields : YieldsOr program state excused post)
    (none : ∀ fault, ¬ excused fault) : Yields program state post := by
  rw [YieldsOr] at yields
  cases outcome : program state with
  | error fault =>
    rw [outcome] at yields
    exact absurd yields (none fault)
  | ok value =>
    rw [outcome] at yields
    exact ⟨value.1, value.2, outcome, yields⟩

end
end Program
end Tnix
