import Tnix.Foundation.Machine
import Tnix.Fs.Layout

/-! # The inode cache

`iget`, `iput` and `iref` of `inode.c` as a machine over any number of tasks. Each critical
section of `icache.lock` is one step. -/

namespace Tnix.Fs

/-- `struct inode`. `sb` is `none` in a slot that was never claimed. -/
structure Inode (Sb : Type) where
  di : Dinode
  sb : Option Sb
  inum : UInt32
  refc : Nat

inductive IgetPc (Sb : Type)
  | idle
  /-- The lookup has missed and `icache.lock` is dropped. -/
  | iexist (sb : Sb) (inum : UInt32)
  /-- `iexist` was true; the lock is about to be taken again. -/
  | claim (sb : Sb) (inum : UInt32)
  /-- The slot is claimed and the lock dropped, before `iread`. -/
  | iread (sb : Sb) (inum : UInt32) (slot : Fin NINODE)
  /-- `iget` has just returned; `none` is `NULL`. -/
  | returned (sb : Sb) (inum : UInt32) (slot : Option (Fin NINODE))

/-- `inodesOnDisk` and `imap` are what `iread` and `iexist` read through `bio.c`.
`held` counts the references handed out by `iget` and `iref` and not put yet; a
reference may be put by another task than the one that got it. -/
structure Icache (Task Sb : Type) where
  inodes : Fin NINODE → Inode Sb
  inodesOnDisk : Sb → UInt32 → Dinode
  imap : Sb → UInt32 → Bool
  pc : Task → IgetPc Sb
  held : Fin NINODE → Nat

namespace Icache

inductive Label (Task Sb : Type)
  | lookup (task : Task) (sb : Sb) (inum : UInt32)
  | iexist (task : Task)
  | claim (task : Task)
  | iread (task : Task)
  | resume (task : Task)
  | iput (slot : Fin NINODE)
  | iref (slot : Fin NINODE)
  /-- `ialloc` and `ifree` change the inode map. -/
  | setImap (imap : Sb → UInt32 → Bool)

variable {Task Sb : Type}

def Carries (state : Icache Task Sb) (slot : Fin NINODE) (sb : Sb) (inum : UInt32) : Prop :=
  (state.inodes slot).sb = some sb ∧ (state.inodes slot).inum = inum

instance [DecidableEq Sb] (state : Icache Task Sb) (slot : Fin NINODE) (sb : Sb)
    (inum : UInt32) : Decidable (state.Carries slot sb inum) :=
  inferInstanceAs (Decidable (_ ∧ _))

def hit [DecidableEq Sb] (state : Icache Task Sb) (sb : Sb) (inum : UInt32) :
    Option (Fin NINODE) :=
  Fin.find? fun slot => state.Carries slot sb inum

def victim (state : Icache Task Sb) : Option (Fin NINODE) :=
  Fin.find? fun slot => (state.inodes slot).refc = 0

theorem carries_of_hit [DecidableEq Sb] {state : Icache Task Sb} {sb : Sb} {inum : UInt32}
    {slot : Fin NINODE} (found : state.hit sb inum = some slot) :
    state.Carries slot sb inum := by
  simpa using Fin.eq_true_of_find?_eq_some found

theorem hit_le [DecidableEq Sb] {state : Icache Task Sb} {sb : Sb} {inum : UInt32}
    {slot other : Fin NINODE} (found : state.hit sb inum = some slot)
    (carries : state.Carries other sb inum) : slot ≤ other := by
  by_contra earlier
  have rejected := Fin.eq_false_of_find?_eq_some_of_lt found other (not_le.mp earlier)
  simp [carries] at rejected

theorem refc_of_victim {state : Icache Task Sb} {slot : Fin NINODE}
    (unused : state.victim = some slot) : (state.inodes slot).refc = 0 := by
  simpa using Fin.eq_true_of_find?_eq_some unused

theorem victim_le {state : Icache Task Sb} {slot other : Fin NINODE}
    (unused : state.victim = some slot) (refc : (state.inodes other).refc = 0) :
    slot ≤ other := by
  by_contra earlier
  have rejected := Fin.eq_false_of_find?_eq_some_of_lt unused other (not_le.mp earlier)
  simp [refc] at rejected

def setInode (state : Icache Task Sb) (slot : Fin NINODE) (inode : Inode Sb) :
    Icache Task Sb :=
  { state with inodes := Function.update state.inodes slot inode }

def setHeld (state : Icache Task Sb) (slot : Fin NINODE) (count : Nat) : Icache Task Sb :=
  { state with held := Function.update state.held slot count }

section
variable (state : Icache Task Sb)
include state

variable (slot : Fin NINODE)

variable (inode : Inode Sb)

@[simp] theorem setInode_same
    : (state.setInode slot inode).inodes slot = inode := by
  simp [setInode]

@[simp] theorem setInode_other {slot other : Fin NINODE}
    (different : other ≠ slot) : (state.setInode slot inode).inodes other = state.inodes other := by
  simp [setInode, different]

@[simp] theorem setInode_rest : (state.setInode slot inode).inodesOnDisk = state.inodesOnDisk ∧
      (state.setInode slot inode).pc = state.pc ∧
      (state.setInode slot inode).held = state.held := ⟨rfl, rfl, rfl⟩

@[simp] theorem setHeld_held (count : Nat) :
    (state.setHeld slot count).held = Function.update state.held slot count := rfl

@[simp] theorem setHeld_rest (count : Nat) : (state.setHeld slot count).inodes = state.inodes ∧
      (state.setHeld slot count).inodesOnDisk = state.inodesOnDisk ∧
      (state.setHeld slot count).pc = state.pc := ⟨rfl, rfl, rfl⟩

end

variable [DecidableEq Task]

def setPc (state : Icache Task Sb) (task : Task) (pc : IgetPc Sb) : Icache Task Sb :=
  { state with pc := Function.update state.pc task pc }

@[simp] theorem setPc_pc (state : Icache Task Sb) (task : Task) (pc : IgetPc Sb) :
    (state.setPc task pc).pc = Function.update state.pc task pc := rfl

@[simp] theorem setPc_rest (state : Icache Task Sb) (task : Task) (pc : IgetPc Sb) :
    (state.setPc task pc).inodes = state.inodes ∧
      (state.setPc task pc).inodesOnDisk = state.inodesOnDisk ∧
      (state.setPc task pc).held = state.held := ⟨rfl, rfl, rfl⟩

def step [DecidableEq Sb] (state : Icache Task Sb) :
    Label Task Sb → Option (Icache Task Sb)
  | .lookup task sb inum =>
    match state.pc task with
    | .idle =>
      match state.hit sb inum with
      | some slot =>
        let inode := state.inodes slot
        some ((state.setInode slot { inode with refc := inode.refc + 1 }).setPc task
          (.returned sb inum (some slot)))
      | none => some (state.setPc task (.iexist sb inum))
    | _ => none
  | .iexist task =>
    match state.pc task with
    | .iexist sb inum =>
      if state.imap sb inum then some (state.setPc task (.claim sb inum))
      else some (state.setPc task (.returned sb inum none))
    | _ => none
  | .claim task =>
    match state.pc task with
    | .claim sb inum =>
      -- Without a free slot: panic("iget: icache exhausted").
      state.victim.map fun slot =>
        (state.setInode slot
          { state.inodes slot with refc := 1, sb := some sb, inum := inum }).setPc
            task (.iread sb inum slot)
    | _ => none
  | .iread task =>
    match state.pc task with
    | .iread sb inum slot =>
      let inode := state.inodes slot
      inode.sb.map fun device =>
        (state.setInode slot
          { inode with di := state.inodesOnDisk device inode.inum }).setPc task
            (.returned sb inum (some slot))
    | _ => none
  | .resume task =>
    match state.pc task with
    | .returned _ _ (some slot) =>
      some ((state.setHeld slot (state.held slot + 1)).setPc task .idle)
    | .returned _ _ none => some (state.setPc task .idle)
    | _ => none
  | .iput slot =>
    if 0 < state.held slot then
      let inode := state.inodes slot
      some ((state.setInode slot { inode with refc := inode.refc - 1 }).setHeld slot
        (state.held slot - 1))
    else none
  | .iref slot =>
    if 0 < state.held slot then
      let inode := state.inodes slot
      some ((state.setInode slot { inode with refc := inode.refc + 1 }).setHeld slot
        (state.held slot + 1))
    else none
  | .setImap imap => some { state with imap := imap }

/-- The zeroed cache, over any disk. -/
def machine (Task Sb : Type) [DecidableEq Task] [DecidableEq Sb] :
    Machine (Icache Task Sb) (Label Task Sb) where
  Initial state :=
    (∀ slot, (state.inodes slot).sb = none ∧ (state.inodes slot).inum = 0 ∧
      (state.inodes slot).refc = 0) ∧
    state.pc = (fun _ => .idle) ∧ state.held = fun _ => 0
  step := step

inductive Transition [DecidableEq Sb] (state : Icache Task Sb) :
    Label Task Sb → Icache Task Sb → Prop
  | hit {task sb inum slot} (pc : state.pc task = .idle)
      (found : state.hit sb inum = some slot) :
      Transition state (.lookup task sb inum) ((state.setInode slot
        { state.inodes slot with refc := (state.inodes slot).refc + 1 }).setPc task
          (.returned sb inum (some slot)))
  | miss {task sb inum} (pc : state.pc task = .idle) (absent : state.hit sb inum = none) :
      Transition state (.lookup task sb inum) (state.setPc task (.iexist sb inum))
  | iexist {task sb inum} (pc : state.pc task = .iexist sb inum)
      (isSet : state.imap sb inum = true) :
      Transition state (.iexist task) (state.setPc task (.claim sb inum))
  | iexistNull {task sb inum} (pc : state.pc task = .iexist sb inum) :
      Transition state (.iexist task) (state.setPc task (.returned sb inum none))
  | claim {task sb inum slot} (pc : state.pc task = .claim sb inum)
      (unused : state.victim = some slot) :
      Transition state (.claim task) ((state.setInode slot
        { state.inodes slot with refc := 1, sb := some sb, inum := inum }).setPc
          task (.iread sb inum slot))
  | iread {task sb inum slot device} (pc : state.pc task = .iread sb inum slot)
      (deviceIs : (state.inodes slot).sb = some device) :
      Transition state (.iread task) ((state.setInode slot { state.inodes slot with
        di := state.inodesOnDisk device (state.inodes slot).inum }).setPc task
          (.returned sb inum (some slot)))
  | resume {task sb inum slot} (pc : state.pc task = .returned sb inum (some slot)) :
      Transition state (.resume task)
        ((state.setHeld slot (state.held slot + 1)).setPc task .idle)
  | resumeNull {task sb inum} (pc : state.pc task = .returned sb inum none) :
      Transition state (.resume task) (state.setPc task .idle)
  | iput {slot} (held : 0 < state.held slot) :
      Transition state (.iput slot) ((state.setInode slot
        { state.inodes slot with refc := (state.inodes slot).refc - 1 }).setHeld slot
          (state.held slot - 1))
  | iref {slot} (held : 0 < state.held slot) :
      Transition state (.iref slot) ((state.setInode slot
        { state.inodes slot with refc := (state.inodes slot).refc + 1 }).setHeld slot
          (state.held slot + 1))
  | setImap {imap} : Transition state (.setImap imap) { state with imap := imap }

theorem transition_of_step [DecidableEq Sb] {state next : Icache Task Sb}
    {label : Label Task Sb} (taken : state.step label = some next) :
    Transition state label next := by
  cases label with
  | lookup task sb inum =>
    simp only [step] at taken
    split at taken
    case h_2 => cases taken
    case h_1 pc =>
      split at taken
      case h_1 slot found => exact Option.some.inj taken ▸ .hit pc found
      case h_2 absent => exact Option.some.inj taken ▸ .miss pc absent
  | iexist task =>
    simp only [step] at taken
    split at taken
    case h_2 => cases taken
    case h_1 sb inum pc =>
      split at taken
      case isTrue isSet => exact Option.some.inj taken ▸ .iexist pc isSet
      case isFalse => exact Option.some.inj taken ▸ .iexistNull pc
  | claim task =>
    simp only [step] at taken
    split at taken
    case h_2 => cases taken
    case h_1 sb inum pc =>
      rcases Option.map_eq_some_iff.mp taken with ⟨slot, unused, rfl⟩
      exact .claim pc unused
  | iread task =>
    simp only [step] at taken
    split at taken
    case h_2 => cases taken
    case h_1 sb inum slot pc =>
      rcases Option.map_eq_some_iff.mp taken with ⟨device, deviceIs, rfl⟩
      exact .iread pc deviceIs
  | resume task =>
    simp only [step] at taken
    split at taken
    case h_1 sb inum slot pc => exact Option.some.inj taken ▸ .resume pc
    case h_2 sb inum pc => exact Option.some.inj taken ▸ .resumeNull pc
    case h_3 => cases taken
  | iput slot =>
    simp only [step] at taken
    rcases Option.ite_none_right_eq_some.mp taken with ⟨held, ⟨⟩⟩
    exact .iput held
  | iref slot =>
    simp only [step] at taken
    rcases Option.ite_none_right_eq_some.mp taken with ⟨held, ⟨⟩⟩
    exact .iref held
  | setImap imap => exact Option.some.inj taken ▸ .setImap

end Icache
end Tnix.Fs
