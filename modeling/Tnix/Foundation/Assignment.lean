import Mathlib.Logic.Function.Basic

/-! # Exclusive assignment

Sites hold resources. A mark on a resource says that some site holds it, and no two
sites hold the same one: what an allocation map is for. -/

namespace Tnix

variable {Site Resource : Type*} {held : Site → Option Resource} {marked : Resource → Bool}

/-- The marks are exact and no resource is held twice. -/
structure Assigned (held : Site → Option Resource) (marked : Resource → Bool) : Prop where
  marked_iff : ∀ resource, marked resource = true ↔ ∃ site, held site = some resource
  once : ∀ {site other resource}, held site = some resource → held other = some resource →
    site = other

theorem Assigned.grant (assigned : Assigned held marked) {given : Site → Prop}
    {held' : Site → Option Resource} {marked' : Resource → Bool}
    (keeps : ∀ site, ¬ given site → held' site = held site)
    (empty : ∀ site, given site → held site = none)
    (isFree : ∀ {site resource}, given site → held' site = some resource →
      marked resource = false) (distinct : ∀ {site other resource}, given site → given other →
      held' site = some resource → held' other = some resource → site = other)
    (marks : ∀ resource, marked' resource = true ↔
      marked resource = true ∨ ∃ site, given site ∧ held' site = some resource) :
    Assigned held' marked' := by
  have unmarked {site other resource} (gives : given site) (found : held' site = some resource)
      (holds : held other = some resource) : False := by
    have free := isFree gives found
    rw [(assigned.marked_iff resource).mpr ⟨other, holds⟩] at free
    cases free
  constructor
  · intro resource
    rw [marks, assigned.marked_iff]
    constructor
    · rintro (⟨site, holds⟩ | ⟨site, _, holds⟩)
      · have stays : ¬ given site := by
          intro gives
          rw [empty site gives] at holds
          cases holds
        exact ⟨site, by rwa [keeps site stays]⟩
      · exact ⟨site, holds⟩
    · rintro ⟨site, holds⟩
      by_cases gives : given site
      · exact .inr ⟨site, gives, holds⟩
      · exact .inl ⟨site, by rwa [keeps site gives] at holds⟩
  · intro first second resource firstHolds secondHolds
    by_cases firstGiven : given first <;> by_cases secondGiven : given second
    · exact distinct firstGiven secondGiven firstHolds secondHolds
    · rw [keeps second secondGiven] at secondHolds
      exact (unmarked firstGiven firstHolds secondHolds).elim
    · rw [keeps first firstGiven] at firstHolds
      exact (unmarked secondGiven secondHolds firstHolds).elim
    · rw [keeps first firstGiven] at firstHolds
      rw [keeps second secondGiven] at secondHolds
      exact assigned.once firstHolds secondHolds

theorem Assigned.release (assigned : Assigned held marked) {dropped : Site → Prop}
    {held' : Site → Option Resource} {marked' : Resource → Bool}
    (keeps : ∀ site, ¬ dropped site → held' site = held site)
    (drops : ∀ site, dropped site → held' site = none)
    (marks : ∀ resource, marked' resource = true ↔
      marked resource = true ∧ ∀ site, dropped site → held site ≠ some resource) :
    Assigned held' marked' := by
  have kept : ∀ {site resource}, held' site = some resource →
      ¬ dropped site ∧ held site = some resource := by
    intro site resource holds
    by_cases gone : dropped site
    · rw [drops site gone] at holds
      cases holds
    · exact ⟨gone, by rwa [keeps site gone] at holds⟩
  constructor
  · intro resource
    rw [marks, assigned.marked_iff]
    constructor
    · rintro ⟨⟨site, holds⟩, elsewhere⟩
      have stays : ¬ dropped site := fun gone => elsewhere site gone holds
      exact ⟨site, by rwa [keeps site stays]⟩
    · rintro ⟨site, holds⟩
      refine ⟨⟨site, (kept holds).2⟩, ?_⟩
      intro other gone otherHolds
      rw [assigned.once otherHolds (kept holds).2] at gone
      exact (kept holds).1 gone
  · exact fun first second => assigned.once (kept first).2 (kept second).2
end Tnix
