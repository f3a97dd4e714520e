import Tnix.Foundation.Tally
import Tnix.Fs.Icache

/-! # Uniqueness and loading of cached inodes

`iget` drops `icache.lock` between its lookup and its claim and does not look again, and a
claimed slot can be found before `iread` has filled it. -/

namespace Tnix.Fs

open Function

def IgetPc.reference {Sb : Type} : IgetPc Sb → Option (Fin NINODE)
  | .iread _ _ slot => some slot
  | .returned _ _ slot => slot
  | _ => none

@[simp] def IgetPc.reading {Sb : Type} : IgetPc Sb → Option (Fin NINODE)
  | .iread _ _ slot => some slot
  | _ => none

namespace Icache

variable {Task Sb : Type}

/-! ## Reference counts -/

/-- A slot is counted once for each reference handed out and each call that is
about to return it. -/
def Counted [Fintype Task] (state : Icache Task Sb) : Prop :=
  ∀ slot, (state.inodes slot).refc =
    state.held slot + tally (fun task => (state.pc task).reference) slot

namespace Counted

variable [Fintype Task] [DecidableEq Task] {state next : Icache Task Sb}

omit [DecidableEq Task] in
theorem refc_pos_of_reference (counted : Counted state) {task : Task} {slot : Fin NINODE}
    (refers : (state.pc task).reference = some slot) : 0 < (state.inodes slot).refc := by
  have positive : 0 < tally (fun task => (state.pc task).reference) slot := tally_pos refers
  rw [counted slot]
  omega

omit [DecidableEq Task] in
theorem refc_pos_of_held (counted : Counted state) {slot : Fin NINODE}
    (held : 0 < state.held slot) : 0 < (state.inodes slot).refc := by
  rw [counted slot]
  omega

theorem move (counted : Counted state) (task : Task) (pc : IgetPc Sb)
    (pcs : next.pc = update state.pc task pc)
    (balance : ∀ slot, (next.inodes slot).refc + state.held slot +
        (if (state.pc task).reference = some slot then 1 else 0) =
      (state.inodes slot).refc + next.held slot +
        (if pc.reference = some slot then 1 else 0)) : Counted next := by
  intro slot
  have references : (fun owner => (next.pc owner).reference) =
      update (fun owner => (state.pc owner).reference) task pc.reference := by
    rw [pcs]
    exact comp_update IgetPc.reference state.pc task pc
  have moved := tally_update (fun owner => (state.pc owner).reference) task pc.reference slot
  have before := counted slot
  have balanced := balance slot
  rw [references]
  omega

variable [DecidableEq Sb]

theorem step (counted : Counted state) {label : Label Task Sb}
    (taken : Transition state label next) : Counted next := by
  cases taken with
  | @hit task sb inum found pc isFound =>
    refine counted.move task (.returned sb inum (some found)) rfl ?_
    intro slot
    by_cases same : slot = found
    · subst same
      simp [pc, IgetPc.reference]
      omega
    · simp [pc, IgetPc.reference, same, Ne.symm same]
  | @miss task sb inum pc absent =>
    refine counted.move task (.iexist sb inum) rfl ?_
    simp [pc, IgetPc.reference]
  | @iexist task sb inum pc isSet =>
    refine counted.move task (.claim sb inum) rfl ?_
    simp [pc, IgetPc.reference]
  | @iexistNull task sb inum pc =>
    refine counted.move task (.returned sb inum none) rfl ?_
    simp [pc, IgetPc.reference]
  | @claim task sb inum claimed pc unused =>
    have refc := refc_of_victim unused
    refine counted.move task (.iread sb inum claimed) rfl ?_
    intro slot
    by_cases same : slot = claimed
    · subst same
      simp [pc, IgetPc.reference, refc]
      omega
    · simp [pc, IgetPc.reference, same, Ne.symm same]
  | @iread task sb inum filled device pc deviceIs =>
    refine counted.move task (.returned sb inum (some filled)) rfl ?_
    intro slot
    by_cases same : slot = filled
    · subst same
      simp [pc, IgetPc.reference]
    · simp [pc, IgetPc.reference, same]
  | @resume task sb inum returned pc =>
    refine counted.move task .idle rfl ?_
    intro slot
    by_cases same : slot = returned
    · subst same
      simp [pc, IgetPc.reference]
      omega
    · simp [pc, IgetPc.reference, same, Ne.symm same]
  | @resumeNull task sb inum pc =>
    refine counted.move task .idle rfl ?_
    simp [pc, IgetPc.reference]
  | @iput put held =>
    intro slot
    have before := counted slot
    by_cases same : slot = put
    · subst same
      simp
      omega
    · simpa [same] using before
  | @iref referenced held =>
    intro slot
    have before := counted slot
    by_cases same : slot = referenced
    · subst same
      simp
      omega
    · simpa [same] using before
  | setImap => exact counted

theorem initial {start : Icache Task Sb} (isInitial : (machine Task Sb).Initial start) :
    Counted start := by
  intro slot
  simp [isInitial.1 slot, isInitial.2.1, isInitial.2.2, IgetPc.reference]

end Counted

/-! ## One slot for each inode -/

def Unique (state : Icache Task Sb) : Prop :=
  ∀ sb inum left right, state.Carries left sb inum → state.Carries right sb inum →
    0 < (state.inodes left).refc → 0 < (state.inodes right).refc → left = right

/-- At its claim a call finds no referenced slot that carries its key. -/
def ClaimsFresh (state : Icache Task Sb) : Label Task Sb → Prop
  | .claim task => ∀ sb inum, state.pc task = .claim sb inum →
      ∀ slot, state.Carries slot sb inum → (state.inodes slot).refc = 0
  | _ => True

/-- A referenced slot stands before every other slot that carries its key, and
these are not referenced. So the lookup, which takes the first, finds it. -/
def LiveFirst (state : Icache Task Sb) : Prop :=
  ∀ sb inum live other, state.Carries live sb inum → 0 < (state.inodes live).refc →
    state.Carries other sb inum → other ≠ live →
    (state.inodes other).refc = 0 ∧ live < other

theorem LiveFirst.unique {state : Icache Task Sb} (first : LiveFirst state) :
    Unique state := by
  intro sb inum left right leftCarries rightCarries leftLive rightLive
  by_contra different
  have := (first sb inum left right leftCarries leftLive rightCarries (Ne.symm different)).1
  omega

namespace LiveFirst

variable {state next : Icache Task Sb}

theorem of_same (first : LiveFirst state)
    (keys : ∀ slot sb inum, next.Carries slot sb inum → state.Carries slot sb inum)
    (live : ∀ slot, 0 < (next.inodes slot).refc → 0 < (state.inodes slot).refc) :
    LiveFirst next := by
  intro sb inum holder other holderCarries holderLive otherCarries different
  have before := first sb inum holder other (keys _ _ _ holderCarries)
    (live _ holderLive) (keys _ _ _ otherCarries) different
  have dropped := live other
  exact ⟨by omega, before.2⟩

theorem claim (first : LiveFirst state) {slot : Fin NINODE} {sb : Sb} {inum : UInt32}
    (unused : state.victim = some slot)
    (fresh : ∀ other, state.Carries other sb inum → (state.inodes other).refc = 0)
    (key : next.Carries slot sb inum)
    (others : ∀ other, other ≠ slot → next.inodes other = state.inodes other) :
    LiveFirst next := by
  intro sb' inum' holder other holderCarries holderLive otherCarries different
  by_cases holderIs : holder = slot
  · subst holderIs
    obtain ⟨rfl, rfl⟩ : sb' = sb ∧ inum' = inum := by
      simpa [Carries, key.1, key.2, eq_comm] using holderCarries
    rw [Carries, others other different] at otherCarries
    have refc := fresh other otherCarries
    rw [others other different]
    exact ⟨refc, lt_of_le_of_ne (victim_le unused refc) (Ne.symm different)⟩
  · rw [others holder holderIs] at holderLive
    rw [Carries, others holder holderIs] at holderCarries
    by_cases otherIs : other = slot
    · subst otherIs
      obtain ⟨rfl, rfl⟩ : sb' = sb ∧ inum' = inum := by
        simpa [Carries, key.1, key.2, eq_comm] using otherCarries
      have := fresh holder holderCarries
      omega
    · rw [Carries, others other otherIs] at otherCarries
      rw [others other otherIs]
      exact first _ _ holder other holderCarries holderLive otherCarries different

variable [DecidableEq Sb]

theorem hit (first : LiveFirst state) {slot : Fin NINODE} {sb : Sb} {inum : UInt32}
    (found : state.hit sb inum = some slot)
    (keys : ∀ slot sb inum, next.Carries slot sb inum → state.Carries slot sb inum)
    (refcs : ∀ other, other ≠ slot →
      (next.inodes other).refc = (state.inodes other).refc) : LiveFirst next := by
  intro sb' inum' holder other holderCarries holderLive otherCarries different
  have holderKey := keys _ _ _ holderCarries
  have otherKey := keys _ _ _ otherCarries
  have slotKey := carries_of_hit found
  by_cases holderIs : holder = slot
  · subst holderIs
    obtain ⟨rfl, rfl⟩ : sb' = sb ∧ inum' = inum := by
      simpa [Carries, slotKey.1, slotKey.2, eq_comm] using holderKey
    have behind := lt_of_le_of_ne (hit_le found otherKey) (Ne.symm different)
    refine ⟨?_, behind⟩
    rw [refcs other different]
    by_contra otherLive
    have ahead := (first _ _ other holder otherKey (Nat.pos_of_ne_zero otherLive) slotKey
      (Ne.symm different)).2
    exact absurd ahead (not_lt.mpr behind.le)
  · rw [refcs holder holderIs] at holderLive
    have before := first _ _ holder other holderKey holderLive otherKey different
    by_cases otherIs : other = slot
    · subst otherIs
      -- The lookup would have stopped at the referenced slot.
      obtain ⟨rfl, rfl⟩ : sb' = sb ∧ inum' = inum := by
        simpa [Carries, slotKey.1, slotKey.2, eq_comm] using otherKey
      exact absurd before.2 (not_lt.mpr (hit_le found holderKey))
    · rw [refcs other otherIs]
      exact before

theorem step [Fintype Task] [DecidableEq Task] (first : LiveFirst state)
    (counted : Counted state) {label : Label Task Sb} (allowed : ClaimsFresh state label)
    (taken : Transition state label next) : LiveFirst next := by
  cases taken with
  | @hit task sb inum slot pc found =>
    refine first.hit found ?_ ?_
    · intro other sb' inum' carries
      by_cases same : other = slot
      · subst same
        simpa [Carries] using carries
      · simpa [Carries, same] using carries
    · intro other different
      simp [different]
  | @claim task sb inum slot pc unused =>
    refine first.claim unused (allowed sb inum pc) ?_ ?_
    · simp [Carries]
    · intro other different
      simp [different]
  | @iread task sb inum slot device pc deviceIs =>
    refine first.of_same ?_ ?_
    all_goals
      intro other
      by_cases same : other = slot
      · subst same
        simp [Carries]
      · simp [Carries, same]
  | @iput slot held =>
    refine first.of_same ?_ ?_
    · intro other sb inum carries
      by_cases same : other = slot
      · subst same
        simpa [Carries] using carries
      · simpa [Carries, same] using carries
    · intro other live
      by_cases same : other = slot
      · subst same
        simp only [setHeld_rest, setInode_same] at live
        omega
      · simpa [same] using live
  | @iref slot held =>
    have referenced := counted.refc_pos_of_held held
    refine first.of_same ?_ ?_
    all_goals
      intro other
      by_cases same : other = slot
      · subst same
        simp [Carries, referenced]
      · simp [Carries, same]
  | miss | iexist | iexistNull | resume | resumeNull | setImap =>
    exact first.of_same (fun _ _ _ => id) fun _ => id

theorem initial [DecidableEq Task] {start : Icache Task Sb}
    (isInitial : (machine Task Sb).Initial start) : LiveFirst start := by
  intro sb inum live other carries
  simp [Carries, isInitial.1 live] at carries

end LiveFirst

variable [Fintype Task] [DecidableEq Task] [DecidableEq Sb]

/-- When every claim finds no referenced slot of its key, one slot serves all who
hold an inode. -/
theorem icache_unique {state : Icache Task Sb}
    (reached : (machine Task Sb).Reaches ClaimsFresh state) : Unique state := by
  have holds := reached.invariant (fun state => Counted state ∧ LiveFirst state)
    (fun _ isInitial => ⟨.initial isInitial, .initial isInitial⟩)
    (fun _ _ _ holds allowed taken =>
      have moved := transition_of_step taken
      ⟨holds.1.step moved, holds.2.step holds.1 allowed moved⟩)
  exact holds.2.unique

omit [Fintype Task] in
/-- The condition cannot be dropped for any claim: a claim that does not meet it
makes a second referenced slot. -/
theorem claimsFresh_of_unique {state next : Icache Task Sb} {task : Task}
    (taken : (machine Task Sb).step state (.claim task) = some next)
    (unique : Unique next) : ClaimsFresh state (.claim task) := by
  intro sb inum pc slot carries
  have moved : Transition state (.claim task) next := transition_of_step taken
  cases moved with
  | @claim _ sb' inum' claimed pc' unused =>
    obtain ⟨rfl, rfl⟩ : sb = sb' ∧ inum = inum' := by
      simpa [pc] using pc'
    by_contra live
    have different : slot ≠ claimed := by
      rintro rfl
      exact live (refc_of_victim unused)
    refine different (unique sb inum slot claimed ?_ ?_ ?_ ?_)
    · simpa [Carries, different] using carries
    · simp [Carries]
    · simpa [different] using Nat.pos_of_ne_zero live
    · simp

def exampleStart : Icache (Fin 2) Unit where
  inodes := fun _ => ⟨⟨.UNUSE, 0, 0, 0, fun _ => 0⟩, none, 0, 0⟩
  inodesOnDisk := fun _ inum => ⟨.REGULAR, 0, 1, inum, fun _ => 0⟩
  imap := fun _ _ => true
  pc := fun _ => .idle
  held := fun _ => 0

theorem initial_exampleStart : (machine (Fin 2) Unit).Initial exampleStart :=
  ⟨fun _ => ⟨rfl, rfl, rfl⟩, rfl, rfl⟩

def exampleRun : List (Label (Fin 2) Unit) :=
  [.lookup 0 () 3, .iexist 0, .claim 0, .iread 0, .lookup 1 () 3]

theorem icache_unique_exampleRun :
    ∃ state, (machine (Fin 2) Unit).run exampleStart exampleRun = some state ∧
      (state.inodes 0).refc = 2 ∧ Unique state := by
  have reached : (machine (Fin 2) Unit).Reaches ClaimsFresh exampleStart :=
    .initial initial_exampleStart
  obtain ⟨state, ran, counted⟩ : ∃ state,
      (machine (Fin 2) Unit).run exampleStart exampleRun = some state ∧
        (state.inodes 0).refc = 2 := ⟨_, rfl, rfl⟩
  refine ⟨state, ran, counted, icache_unique (reached.run ?_ ran)⟩
  exact ⟨trivial, trivial, fun _ _ _ _ _ => rfl, trivial, trivial, trivial⟩

def overlappingRun : List (Label (Fin 2) Unit) :=
  [.lookup 0 () 3, .lookup 1 () 3, .iexist 0, .iexist 1, .claim 0, .claim 1, .iread 0, .iread 1]

theorem overlappingRun_not_unique :
    ∃ state, (machine (Fin 2) Unit).Reachable state ∧
      state.pc 0 = .returned () 3 (some 0) ∧ state.pc 1 = .returned () 3 (some 1) ∧
      ¬ Unique state := by
  obtain ⟨state, ran, left, right, leftCarries, rightCarries, leftLive, rightLive⟩ :
      ∃ state, (machine (Fin 2) Unit).run exampleStart overlappingRun = some state ∧
        state.pc 0 = .returned () 3 (some 0) ∧ state.pc 1 = .returned () 3 (some 1) ∧
        state.Carries 0 () 3 ∧ state.Carries 1 () 3 ∧
        (state.inodes 0).refc = 1 ∧ (state.inodes 1).refc = 1 :=
    ⟨_, rfl, rfl, rfl, ⟨rfl, rfl⟩, ⟨rfl, rfl⟩, rfl, rfl⟩
  have started : (machine (Fin 2) Unit).Reachable exampleStart :=
    .initial initial_exampleStart
  refine ⟨state, started.run ran, left, right, ?_⟩
  intro unique
  have same := unique () 3 0 1 leftCarries rightCarries (by omega) (by omega)
  revert same
  decide

/-! ## Loaded slots -/

/-- Every slot a call of `iget(sb, inum)` has returned holds the dinode. -/
def ReturnsLoaded (state : Icache Task Sb) : Prop :=
  ∀ task sb inum slot, state.pc task = .returned sb inum (some slot) →
    (state.inodes slot).di = state.inodesOnDisk sb inum

/-- A lookup does not find a slot between its claim and the end of its `iread`. -/
def FindsFilled (state : Icache Task Sb) : Label Task Sb → Prop
  | .lookup _ sb inum => ∀ slot, state.hit sb inum = some slot →
      ∀ other, (state.pc other).reading ≠ some slot
  | _ => True

structure Loaded (state : Icache Task Sb) : Prop where
  reading : ∀ task sb inum slot, state.pc task = .iread sb inum slot →
    state.Carries slot sb inum
  returned : ∀ task sb inum slot, state.pc task = .returned sb inum (some slot) →
    state.Carries slot sb inum ∧ (state.inodes slot).di = state.inodesOnDisk sb inum
  slots : ∀ slot sb inum, state.Carries slot sb inum →
    (∃ task, (state.pc task).reading = some slot) ∨
      (state.inodes slot).di = state.inodesOnDisk sb inum

namespace Loaded

variable {state next : Icache Task Sb}

def Returns (state : Icache Task Sb) (pc : IgetPc Sb) : Prop :=
  ∀ sb inum slot, pc = .returned sb inum (some slot) →
    state.Carries slot sb inum ∧ (state.inodes slot).di = state.inodesOnDisk sb inum

omit [Fintype Task] [DecidableEq Task] [DecidableEq Sb]

theorem of_same (loaded : Loaded state) (disk : next.inodesOnDisk = state.inodesOnDisk)
    (inodes : ∀ slot, (next.inodes slot).sb = (state.inodes slot).sb ∧
      (next.inodes slot).inum = (state.inodes slot).inum ∧
      (next.inodes slot).di = (state.inodes slot).di) (pcs : ∀ task, next.pc task = state.pc task ∨
      (state.pc task).reading = none ∧ (next.pc task).reading = none ∧
        Returns state (next.pc task)) : Loaded next := by
  have carries : ∀ slot sb inum, next.Carries slot sb inum ↔ state.Carries slot sb inum := by
    intro slot sb inum
    rw [Carries, Carries, (inodes slot).1, (inodes slot).2.1]
  refine ⟨?_, ?_, ?_⟩
  · intro task sb inum slot atPc
    rw [carries]
    rcases pcs task with same | ⟨_, notReading, _⟩
    · exact loaded.reading task sb inum slot (same ▸ atPc)
    · simp [atPc] at notReading
  · intro task sb inum slot atPc
    rw [carries, (inodes slot).2.2, disk]
    rcases pcs task with same | ⟨_, _, returns⟩
    · exact loaded.returned task sb inum slot (same ▸ atPc)
    · exact returns sb inum slot atPc
  · intro slot sb inum isCarried
    rw [(inodes slot).2.2, disk]
    rcases loaded.slots slot sb inum ((carries _ _ _).mp isCarried) with ⟨task, reads⟩ | filled
    · rcases pcs task with same | ⟨notReading, _, _⟩
      · exact .inl ⟨task, same ▸ reads⟩
      · cases notReading.symm.trans reads
    · exact .inr filled

variable {slot : Fin NINODE}

theorem refc_only (refc : Nat) (other : Fin NINODE) :
    ((state.setInode slot { state.inodes slot with refc := refc }).inodes other).sb =
        (state.inodes other).sb ∧
      ((state.setInode slot { state.inodes slot with refc := refc }).inodes other).inum =
        (state.inodes other).inum ∧
      ((state.setInode slot { state.inodes slot with refc := refc }).inodes other).di =
        (state.inodes other).di := by
  by_cases same : other = slot
  · subst same
    simp
  · simp [same]

variable [DecidableEq Task]

theorem move (loaded : Loaded state) (task : Task) {pc : IgetPc Sb}
    (pcs : next.pc = update state.pc task pc) (disk : next.inodesOnDisk = state.inodesOnDisk)
    (inodes : ∀ slot, (next.inodes slot).sb = (state.inodes slot).sb ∧
      (next.inodes slot).inum = (state.inodes slot).inum ∧
      (next.inodes slot).di = (state.inodes slot).di)
    (notReading : (state.pc task).reading = none ∧ pc.reading = none)
    (returns : Returns state pc) : Loaded next := by
  refine loaded.of_same disk inodes ?_
  intro owner
  by_cases same : owner = task
  · rw [pcs, same, update_self]
    exact .inr ⟨notReading.1, notReading.2, returns⟩
  · rw [pcs, update_of_ne same]
    exact .inl rfl

theorem iread (loaded : Loaded state) {task : Task} {sb device : Sb} {inum : UInt32}
    (pc : state.pc task = .iread sb inum slot) (deviceIs : (state.inodes slot).sb = some device) :
    Loaded ((state.setInode slot { state.inodes slot with
      di := state.inodesOnDisk device (state.inodes slot).inum }).setPc task
        (.returned sb inum (some slot))) := by
  have key := loaded.reading task sb inum slot pc
  obtain rfl : device = sb := by simpa [deviceIs] using key.1
  have inumIs := key.2
  refine ⟨?_, ?_, ?_⟩
  · intro owner sb' inum' other atPc
    by_cases same : owner = task
    · simp [same] at atPc
    · have before := loaded.reading owner sb' inum' other (by simpa [same] using atPc)
      by_cases sameSlot : other = slot
      · subst sameSlot
        simpa [Carries] using before
      · simpa [Carries, sameSlot] using before
  · intro owner sb' inum' other atPc
    by_cases same : owner = task
    · subst same
      obtain ⟨rfl, rfl, rfl⟩ : device = sb' ∧ inum = inum' ∧ slot = other := by
        simpa using atPc
      simp [Carries, deviceIs, inumIs]
    · have before := loaded.returned owner sb' inum' other (by simpa [same] using atPc)
      by_cases sameSlot : other = slot
      · subst sameSlot
        obtain ⟨rfl, rfl⟩ : device = sb' ∧ inum = inum' := by
          simpa [Carries, deviceIs, inumIs] using before.1
        simp [Carries, deviceIs, inumIs]
      · simpa [Carries, sameSlot] using before
  · intro other sb' inum' carries
    by_cases sameSlot : other = slot
    · subst sameSlot
      obtain ⟨rfl, rfl⟩ : device = sb' ∧ inum = inum' := by
        simpa [Carries, deviceIs, inumIs] using carries
      exact .inr (by simp [inumIs])
    · have before : state.Carries other sb' inum' := by
        simpa [Carries, sameSlot] using carries
      rcases loaded.slots other sb' inum' before with ⟨owner, reads⟩ | filled
      · have different : owner ≠ task := by
          rintro rfl
          simp [pc, Ne.symm sameSlot] at reads
        exact .inl ⟨owner, by simpa [different] using reads⟩
      · exact .inr (by simpa [sameSlot] using filled)

variable [Fintype Task] [DecidableEq Sb]

omit [DecidableEq Sb] in
theorem claim (loaded : Loaded state) (counted : Counted state) {task : Task} {sb : Sb}
    {inum : UInt32} (pc : state.pc task = .claim sb inum) (unused : state.victim = some slot) :
    Loaded ((state.setInode slot
      { state.inodes slot with refc := 1, sb := some sb, inum := inum }).setPc
        task (.iread sb inum slot)) := by
  have unreferenced : ∀ owner, (state.pc owner).reference ≠ some slot := by
    intro owner refers
    have := counted.refc_pos_of_reference refers
    rw [refc_of_victim unused] at this
    omega
  refine ⟨?_, ?_, ?_⟩
  · intro owner sb' inum' other atPc
    by_cases same : owner = task
    · subst same
      obtain ⟨rfl, rfl, rfl⟩ : sb = sb' ∧ inum = inum' ∧ slot = other := by
        simpa using atPc
      simp [Carries]
    · have before : state.pc owner = .iread sb' inum' other := by simpa [same] using atPc
      have different : other ≠ slot := by
        rintro rfl
        exact unreferenced owner (by simp [before, IgetPc.reference])
      simpa [Carries, different] using loaded.reading owner sb' inum' other before
  · intro owner sb' inum' other atPc
    by_cases same : owner = task
    · simp [same] at atPc
    · have before : state.pc owner = .returned sb' inum' (some other) := by
        simpa [same] using atPc
      have different : other ≠ slot := by
        rintro rfl
        exact unreferenced owner (by simp [before, IgetPc.reference])
      simpa [Carries, different] using loaded.returned owner sb' inum' other before
  · intro other sb' inum' carries
    by_cases same : other = slot
    · exact .inl ⟨task, by simp [same]⟩
    · have before : state.Carries other sb' inum' := by
        simpa [Carries, same] using carries
      rcases loaded.slots other sb' inum' before with ⟨owner, reads⟩ | filled
      · have different : owner ≠ task := by
          rintro rfl
          simp [pc] at reads
        exact .inl ⟨owner, by simpa [different] using reads⟩
      · exact .inr (by simpa [same] using filled)

theorem step (loaded : Loaded state) (counted : Counted state) {label : Label Task Sb}
    (allowed : FindsFilled state label) (taken : Transition state label next) :
    Loaded next := by
  cases taken with
  | @hit task sb inum slot pc found =>
    have carries := carries_of_hit found
    refine loaded.move task rfl rfl (refc_only _) ⟨?_, rfl⟩ ?_
    · simp [pc]
    · rintro sb' inum' slot' ⟨⟩
      refine ⟨carries, ?_⟩
      rcases loaded.slots slot sb inum carries with ⟨owner, reads⟩ | filled
      · exact absurd reads (allowed slot found owner)
      · exact filled
  | @miss task sb inum pc absent =>
    refine loaded.move task rfl rfl (fun _ => ⟨rfl, rfl, rfl⟩) ⟨?_, rfl⟩ ?_
    · simp [pc]
    · simp [Returns]
  | @iexist task sb inum pc isSet =>
    refine loaded.move task rfl rfl (fun _ => ⟨rfl, rfl, rfl⟩) ⟨?_, rfl⟩ ?_
    · simp [pc]
    · simp [Returns]
  | @iexistNull task sb inum pc =>
    refine loaded.move task rfl rfl (fun _ => ⟨rfl, rfl, rfl⟩) ⟨?_, rfl⟩ ?_
    · simp [pc]
    · simp [Returns]
  | claim pc unused => exact loaded.claim counted pc unused
  | iread pc deviceIs => exact loaded.iread pc deviceIs
  | @resume task sb inum slot pc =>
    refine loaded.move task rfl rfl (fun _ => ⟨rfl, rfl, rfl⟩) ⟨?_, rfl⟩ ?_
    · simp [pc]
    · simp [Returns]
  | @resumeNull task sb inum pc =>
    refine loaded.move task rfl rfl (fun _ => ⟨rfl, rfl, rfl⟩) ⟨?_, rfl⟩ ?_
    · simp [pc]
    · simp [Returns]
  | iput held => exact loaded.of_same rfl (refc_only _) fun _ => .inl rfl
  | iref held => exact loaded.of_same rfl (refc_only _) fun _ => .inl rfl
  | setImap => exact loaded.of_same rfl (fun _ => ⟨rfl, rfl, rfl⟩) fun _ => .inl rfl

omit [Fintype Task] in
theorem initial {start : Icache Task Sb} (isInitial : (machine Task Sb).Initial start) :
    Loaded start := by
  refine ⟨?_, ?_, ?_⟩
  · simp [isInitial.2.1]
  · simp [isInitial.2.1]
  · intro slot sb inum carries
    simp [Carries, isInitial.1 slot] at carries

end Loaded

/-- When no lookup finds a slot that is still to be filled, `iget` returns
filled slots only. -/
theorem iget_returns_loaded {state : Icache Task Sb}
    (reached : (machine Task Sb).Reaches FindsFilled state) : ReturnsLoaded state := by
  have holds := reached.invariant (fun state => Counted state ∧ Loaded state)
    (fun _ isInitial => ⟨.initial isInitial, .initial isInitial⟩)
    (fun _ _ _ holds allowed taken =>
      have moved := transition_of_step taken
      ⟨holds.1.step moved, holds.2.step holds.1 allowed moved⟩)
  intro task sb inum slot returned
  exact (holds.2.returned task sb inum slot returned).2

theorem iget_returns_loaded_exampleRun :
    ∃ state, (machine (Fin 2) Unit).run exampleStart exampleRun = some state ∧
      state.pc 1 = .returned () 3 (some 0) ∧ ReturnsLoaded state := by
  have reached : (machine (Fin 2) Unit).Reaches FindsFilled exampleStart :=
    .initial initial_exampleStart
  obtain ⟨state, ran, returned⟩ : ∃ state,
      (machine (Fin 2) Unit).run exampleStart exampleRun = some state ∧
        state.pc 1 = .returned () 3 (some 0) := ⟨_, rfl, rfl⟩
  refine ⟨state, ran, returned, iget_returns_loaded (reached.run ?_ ran)⟩
  refine ⟨?_, trivial, trivial, trivial, ?_, trivial⟩
  · intro slot found
    cases found
  · intro slot _ other
    match other with
    | 0 => nofun
    | 1 => nofun

def earlyRun : List (Label (Fin 2) Unit) :=
  [.lookup 0 () 3, .iexist 0, .claim 0, .lookup 1 () 3]

theorem earlyRun_not_loaded :
    ∃ state, (machine (Fin 2) Unit).Reachable state ∧
      state.pc 1 = .returned () 3 (some 0) ∧ ¬ ReturnsLoaded state := by
  obtain ⟨state, ran, returned, size, sizeOnDisk⟩ :
      ∃ state, (machine (Fin 2) Unit).run exampleStart earlyRun = some state ∧
        state.pc 1 = .returned () 3 (some 0) ∧
        (state.inodes 0).di.fsize = 0 ∧ (state.inodesOnDisk () 3).fsize = 3 :=
    ⟨_, rfl, rfl, rfl, rfl⟩
  have started : (machine (Fin 2) Unit).Reachable exampleStart :=
    .initial initial_exampleStart
  refine ⟨state, started.run ran, returned, ?_⟩
  intro loaded
  rw [loaded 1 () 3 0 returned, sizeOnDisk] at size
  exact absurd size (by decide)

end Icache
end Tnix.Fs
