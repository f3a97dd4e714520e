import Tnix.Dev.Disk
import Tnix.Foundation.Assignment
import Tnix.Foundation.Ring

/-! # The disk request protocol

The heads of the chains that the device or the handler has still to deal with are in flight,
each of them once. -/

namespace Tnix.Dev

open Function List Disk

inductive Part
  | op
  | data
  | status
  deriving DecidableEq

def Idx.get (idx : Idx) : Part → Nat
  | .op => idx.op
  | .data => idx.data
  | .status => idx.status

namespace DiskPc

def locked : DiskPc → Bool
  | .alloc _ _ => true
  | .notify _ => true
  | .wait _ => true
  | _ => false

def request : DiskPc → Option Idx
  | .notify idx => some idx
  | .wait idx => some idx
  | .sleepBuf idx => some idx
  | _ => none

def sent : DiskPc → Option Idx
  | .wait idx => some idx
  | .sleepBuf idx => some idx
  | _ => none

def unsent : DiskPc → Option Idx
  | .notify idx => some idx
  | _ => none

variable {pc : DiskPc} {idx : Idx}

theorem request_of_sent (isSent : pc.sent = some idx) :
    pc.request = some idx := by
  cases pc with
  | wait | sleepBuf => exact isSent
  | idle | enter | alloc | sleepDesc | notify => cases isSent

theorem request_of_unsent (isUnsent : pc.unsent = some idx) :
    pc.request = some idx := by
  cases pc with
  | notify => exact isUnsent
  | idle | enter | alloc | sleepDesc | wait | sleepBuf => cases isUnsent

theorem unsent_of_sent (isSent : pc.sent = some idx) :
    pc.unsent = none := by
  cases pc with
  | wait | sleepBuf => rfl
  | idle | enter | alloc | sleepDesc | notify => cases isSent

theorem locked_of_unsent (isUnsent : pc.unsent = some idx) :
    pc.locked = true := by
  cases pc with
  | notify => rfl
  | idle | enter | alloc | sleepDesc | wait | sleepBuf => cases isUnsent

end DiskPc

variable {Task : Type} {disk next : Disk Task} {t : Task} {idx : Idx}

namespace Disk

def held (disk : Disk Task) (site : Task × Part) : Option Nat :=
  (disk.pc site.1).request.map fun idx => idx.get site.2

def marked (disk : Disk Task) (i : Nat) : Bool := decide (i < NUM) && !disk.free i

theorem marked_iff {i : Nat} : disk.marked i = true ↔ i < NUM ∧ disk.free i = false := by
  simp [marked]

structure Linked (disk : Disk Task) (idx : Idx) : Prop where
  opFlags : (disk.desc idx.op).flags &&& VRING_DESC_F_NEXT ≠ 0
  opNext : (disk.desc idx.op).next = idx.data
  dataFlags : (disk.desc idx.data).flags &&& VRING_DESC_F_NEXT ≠ 0
  dataNext : (disk.desc idx.data).next = idx.status
  statusFlags : (disk.desc idx.status).flags &&& VRING_DESC_F_NEXT = 0

structure Chain (disk : Disk Task) (t : Task) (idx : Idx) : Prop extends disk.Linked idx where
  dataAddr : (disk.desc idx.data).addr = .data t
  statusAddr : (disk.desc idx.status).addr = .status idx.op
  buffer : (disk.info idx.op).b = some t

def availQueue (disk : Disk Task) : List Nat :=
  Ring.queue NUM disk.avail.ring disk.taken disk.avail.idx

def usedQueue (disk : Disk Task) : List Nat :=
  Ring.queue NUM disk.used.ring disk.usedIdx disk.used.idx

def flying (disk : Disk Task) : List Nat := disk.availQueue ++ disk.pending ++ disk.usedQueue

theorem length_flying (disk : Disk Task) : disk.flying.length =
    disk.availQueue.length + disk.pending.length + disk.usedQueue.length := by
  rw [flying, length_append, length_append]

def awaited (disk : Disk Task) (t : Task) : Option Nat :=
  if disk.busy t then (disk.pc t).sent.map Idx.op else none

end Disk

/-! ## Descriptors -/

/-- Who has the lock and which descriptors belong to which request. -/
structure Owned (disk : Disk Task) : Prop where
  locked : ∀ t, (disk.pc t).locked = true ↔ disk.lock = some (.task t)
  assigned : Assigned disk.held disk.marked
  chains : ∀ {t idx}, (disk.pc t).request = some idx → disk.Chain t idx

namespace Owned

theorem held_get (isRequest : (disk.pc t).request = some idx) (part : Part) :
    disk.held (t, part) = some (idx.get part) := by
  rw [Disk.held, isRequest]
  rfl

section
variable (owned : Owned disk)
include owned

section
variable (isRequest : (disk.pc t).request = some idx)
include isRequest

theorem marked_get (part : Part) : disk.marked (idx.get part) = true :=
  (owned.assigned.marked_iff _).mpr ⟨(t, part), held_get isRequest part⟩

theorem lt_get (part : Part) : idx.get part < NUM :=
  (marked_iff.mp (owned.marked_get isRequest part)).1

theorem free_get (part : Part) : disk.free (idx.get part) = false :=
  (marked_iff.mp (owned.marked_get isRequest part)).2

end

theorem eq_of_get {other : Task} {idx' : Idx} {part part' : Part}
    (isRequest : (disk.pc t).request = some idx) (isOther : (disk.pc other).request = some idx')
    (same : idx.get part = idx'.get part') : t = other ∧ part = part' := by
  have holds := held_get isRequest part
  rw [same] at holds
  have sites := owned.assigned.once holds (held_get isOther part')
  exact ⟨congrArg Prod.fst sites, congrArg Prod.snd sites⟩

end
end Owned

theorem Disk.Chain.congr (chain : disk.Chain t idx)
    (sameDesc : ∀ part, next.desc (idx.get part) = disk.desc (idx.get part))
    (sameInfo : (next.info idx.op).b = (disk.info idx.op).b) : next.Chain t idx where
  opFlags := (sameDesc .op) ▸ chain.opFlags
  opNext := (sameDesc .op) ▸ chain.opNext
  dataAddr := (sameDesc .data) ▸ chain.dataAddr
  dataFlags := (sameDesc .data) ▸ chain.dataFlags
  dataNext := (sameDesc .data) ▸ chain.dataNext
  statusAddr := (sameDesc .status) ▸ chain.statusAddr
  statusFlags := (sameDesc .status) ▸ chain.statusFlags
  buffer := sameInfo ▸ chain.buffer

theorem Owned.keep (owned : Owned disk)
    (locked : ∀ t, (next.pc t).locked = true ↔ next.lock = some (.task t))
    (request : ∀ t, (next.pc t).request = (disk.pc t).request) (free : next.free = disk.free)
    (desc : ∀ i, disk.marked i = true → next.desc i = disk.desc i)
    (info : ∀ i, (next.info i).b = (disk.info i).b) : Owned next where
  locked := locked
  assigned := by
    have sameHeld : next.held = disk.held := by
      funext site
      rw [Disk.held, request, Disk.held]
    have sameMarked : next.marked = disk.marked := by
      funext i
      rw [Disk.marked, free, Disk.marked]
    rw [sameHeld, sameMarked]
    exact owned.assigned
  chains := by
    intro t idx isRequest
    rw [request] at isRequest
    exact (owned.chains isRequest).congr
      (fun part => desc _ (owned.marked_get isRequest part)) (info _)

/-! ## Allocation and release -/

section

theorem Disk.allocDesc_some (disk : Disk Task) {free : Nat → Bool} {i : Nat}
    (found : Disk.allocDesc { disk with free := free } = some (i, next)) :
    i < NUM ∧ free i = true ∧ next = { disk with free := update free i false } := by
  rw [Disk.allocDesc] at found
  split at found
  · rename_i first isFirst
    cases found
    exact ⟨mem_range.mp (mem_of_find?_eq_some isFirst), find?_some isFirst, rfl⟩
  · cases found

theorem Disk.freeDesc_ok (disk : Disk Task) {desc : Nat → Desc Task} {free : Nat → Bool} {i : Nat}
    (inTable : i < NUM) (isTaken : free i = false) :
    Disk.freeDesc { disk with desc := desc, free := free } i = .ok { disk with
      desc := update desc i .zero
      free := update free i true } := by
  rw [Disk.freeDesc, if_neg (Nat.not_le.mpr inTable), if_neg (by simp [isTaken])]

structure Disk.Fresh (disk : Disk Task) (idx : Idx) : Prop where
  inTable : ∀ part, idx.get part < NUM
  isFree : ∀ part, disk.free (idx.get part) = true
  distinct : ∀ {part part'}, idx.get part = idx.get part' → part = part'

theorem Disk.Fresh.not_marked (fresh : disk.Fresh idx) (part : Part) :
    disk.marked (idx.get part) = false := by
  rw [Disk.marked, fresh.isFree part]
  exact Bool.and_false _

def Disk.takeDesc (disk : Disk Task) (idx : Idx) : Disk Task :=
  { disk with
    free := update (update (update disk.free idx.op false)
      idx.data false) idx.status false }

theorem Disk.ne_of_marked {i j : Nat} (isMarked : disk.marked i = true)
    (isFree : disk.free j = true) : i ≠ j := by
  rintro rfl
  rw [(marked_iff.mp isMarked).2] at isFree
  cases isFree

theorem update_free {free : Nat → Bool} {i : Nat} (wasFree : free i = true) :
    update (update free i false) i true = free := by
  rw [update_idem, ← wasFree, update_eq_self]

theorem Disk.alloc3Desc_cases (disk : Disk Task) :
    (∃ desc, disk.alloc3Desc = .ok (none, { disk with desc := desc }) ∧
      ∀ i, disk.marked i = true → desc i = disk.desc i) ∨
    ∃ idx, disk.alloc3Desc = .ok (some idx, disk.takeDesc idx) ∧ disk.Fresh idx := by
  rw [Disk.alloc3Desc]
  split
  · exact .inl ⟨disk.desc, rfl, fun _ _ => rfl⟩
  · rename_i op afterOp first
    rcases allocDesc_some disk first with ⟨opInTable, opFree, rfl⟩
    have opTaken := update_self op false disk.free
    have opSame {i : Nat} (isMarked : disk.marked i = true) :=
      update_of_ne (ne_of_marked isMarked opFree) Desc.zero disk.desc
    split
    · refine .inl ⟨update disk.desc op .zero, ?_, fun _ => opSame⟩
      rw [disk.freeDesc_ok opInTable opTaken, update_free opFree]
      rfl
    · rename_i data afterData second
      rcases allocDesc_some disk second with ⟨dataInTable, dataFree, rfl⟩
      have dataNotOp : data ≠ op := by
        rintro rfl
        rw [opTaken] at dataFree
        cases dataFree
      have dataWasFree : disk.free data = true := by
        rwa [update_of_ne dataNotOp] at dataFree
      have dataTaken := update_self data false (update disk.free op false)
      have opStillTaken := (update_of_ne dataNotOp.symm false _).trans opTaken
      split
      · refine .inl ⟨update (update disk.desc op .zero) data .zero, ?_, ?_⟩
        · rw [disk.freeDesc_ok opInTable opStillTaken]
          have dataStillTaken := (update_of_ne dataNotOp true _).trans dataTaken
          have freed := @Disk.freeDesc_ok _ disk (update disk.desc op .zero) _ _
            dataInTable dataStillTaken
          simp only [bind, Except.bind]
          rw [freed, update_comm dataNotOp, update_free opFree, update_free dataWasFree]
        · intro i isMarked
          rw [update_of_ne (ne_of_marked isMarked dataWasFree)]
          exact opSame isMarked
      · rename_i status afterStatus third
        rcases allocDesc_some disk third with ⟨statusInTable, statusFree, rfl⟩
        have statusNotData : status ≠ data := by
          rintro rfl
          rw [dataTaken] at statusFree
          cases statusFree
        have statusNotOp : status ≠ op := by
          rintro rfl
          rw [opStillTaken] at statusFree
          cases statusFree
        have statusWasFree : disk.free status = true := by
          rwa [update_of_ne statusNotData, update_of_ne statusNotOp]
            at statusFree
        refine .inr ⟨⟨op, data, status⟩, rfl, ?_, ?_, ?_⟩
        · intro part
          cases part <;> assumption
        · intro part
          cases part <;> assumption
        · intro part part' same
          cases part <;> cases part' <;>
            first | rfl | exact absurd same ‹_› | exact absurd same.symm ‹_›

def Disk.dropDesc (disk : Disk Task) (idx : Idx) : Disk Task :=
  { disk with
    desc := update (update (update disk.desc idx.op .zero)
      idx.data .zero) idx.status .zero
    free := update (update (update disk.free idx.op true)
      idx.data true) idx.status true }

theorem Disk.freeChain_ok (chain : disk.Linked idx) (inTable : ∀ part, idx.get part < NUM)
    (taken : ∀ part, disk.free (idx.get part) = false)
    (distinct : ∀ {part part'}, idx.get part = idx.get part' → part = part') :
    disk.freeChain idx.op = .ok (disk.dropDesc idx) := by
  have dataNotOp : idx.data ≠ idx.op := fun same => by cases @distinct .data .op same
  have statusNotOp : idx.status ≠ idx.op := fun same => by cases @distinct .status .op same
  have statusNotData : idx.status ≠ idx.data := fun same => by cases @distinct .status .data same
  have first := @Disk.freeDesc_ok _ disk disk.desc disk.free _ (inTable .op) (taken .op)
  have second := @Disk.freeDesc_ok _ disk (update disk.desc idx.op .zero)
    (update disk.free idx.op true) _ (inTable .data)
    ((update_of_ne dataNotOp _ _).trans (taken .data))
  have third := @Disk.freeDesc_ok _ disk
    (update (update disk.desc idx.op .zero) idx.data .zero)
    (update (update disk.free idx.op true) idx.data true) _ (inTable .status)
    ((update_of_ne statusNotData _ _).trans
      ((update_of_ne statusNotOp _ _).trans (taken .status)))
  have dataDesc : update disk.desc idx.op .zero idx.data = disk.desc idx.data :=
    update_of_ne dataNotOp _ _
  have statusDesc : update (update disk.desc idx.op .zero) idx.data .zero
      idx.status = disk.desc idx.status := by
    rw [update_of_ne statusNotData, update_of_ne statusNotOp]
  simp only [Idx.get] at first second third
  rw [Disk.freeChain, NUM, Disk.freeChainFrom, first]
  simp only [bind, Except.bind]
  rw [if_pos chain.opFlags, chain.opNext, Disk.freeChainFrom, second]
  simp only [bind, Except.bind, dataDesc]
  rw [if_pos chain.dataFlags, chain.dataNext, Disk.freeChainFrom, third]
  simp only [bind, Except.bind, statusDesc]
  rw [if_neg (by rw [chain.statusFlags]; exact not_not_intro rfl)]
  rfl

section
variable {α : Type} {cells : Nat → α} {value : α}

theorem update_part (part : Part) :
    update (update (update cells idx.op value) idx.data value)
      idx.status value (idx.get part) = value := by
  cases part <;> simp [update_apply, Idx.get]

theorem update_other {v₁ v₂ v₃ : α} {i : Nat} (other : ∀ part, idx.get part ≠ i) :
    update (update (update cells idx.op v₁) idx.data v₂) idx.status v₃ i = cells i := by
  have notStatus : i ≠ idx.status := (other .status).symm
  have notData : i ≠ idx.data := (other .data).symm
  have notOp : i ≠ idx.op := (other .op).symm
  rw [update_of_ne notStatus, update_of_ne notData, update_of_ne notOp]

end
end

theorem Owned.mine (owned : Owned disk) {pc : DiskPc} (atPc : disk.pc t = pc)
    (locked : pc.locked = true) : disk.lock = some (.task t) :=
  (owned.locked t).mp (atPc ▸ locked)

theorem others_of_free {before after : Option (Holder Task)}
    (freeBefore : before = none ∨ before = some (.task t))
    (freeAfter : after = none ∨ after = some (.task t)) (other : Task) (different : other ≠ t) :
    before = some (.task other) ↔ after = some (.task other) := by
  have not (lock : Option (Holder Task)) (mine : lock = none ∨ lock = some (.task t)) :
      lock ≠ some (.task other) := by
    rintro rfl
    rcases mine with mine | mine
    · cases mine
    · cases mine
      exact different rfl
  exact iff_of_false (not before freeBefore) (not after freeAfter)

variable {other : Task}

theorem Owned.alone (owned : Owned disk) (mine : disk.lock = some (.task t))
    (different : other ≠ t) : (disk.pc other).unsent = none := by
  cases isUnsent : (disk.pc other).unsent with
  | none => rfl
  | some idx =>
    have theirs := (owned.locked other).mp (DiskPc.locked_of_unsent isUnsent)
    rw [mine] at theirs
    cases theirs
    exact absurd rfl different

def Disk.completedOf (disk : Disk Task) (t : Task) (i : Nat) : Disk Task :=
  { disk with
    pending := disk.pending.erase i
    info := update disk.info i { disk.info i with status := 0 }
    used := ⟨disk.used.idx + 1, update disk.used.ring (disk.used.idx.toNat % NUM) i⟩
    completed := disk.completed ++ [t] }

theorem Disk.completedOf_buffer (disk : Disk Task) (t : Task) (i j : Nat) :
    ((disk.completedOf t i).info j).b = (disk.info j).b := by
  by_cases same : j = i
  · subst same
    simp [Disk.completedOf]
  · simp [Disk.completedOf, update_of_ne same]

theorem Disk.awaited_eq_some {i : Nat} :
    disk.awaited t = some i ↔
      ∃ idx, disk.busy t = true ∧ (disk.pc t).sent = some idx ∧ idx.op = i := by
  rw [Disk.awaited]
  by_cases isBusy : disk.busy t = true <;> simp [isBusy]

theorem Disk.awaited_of_not_sent (notSent : (disk.pc t).sent = none) : disk.awaited t = none := by
  rw [Disk.awaited, notSent]
  exact ite_self _

theorem Disk.awaited_congr (sameBusy : next.busy t = disk.busy t)
    (sameSent : (next.pc t).sent = (disk.pc t).sent) : next.awaited t = disk.awaited t := by
  rw [Disk.awaited, sameBusy, sameSent, Disk.awaited]

theorem Disk.mem_flying_of_used {i : Nat} (isUsed : i ∈ disk.usedQueue) : i ∈ disk.flying :=
  mem_append_right _ isUsed

theorem length_le_num {heads : List Nat} (nodup : heads.Nodup)
    (inTable : ∀ i ∈ heads, i < NUM) : heads.length ≤ NUM := by
  have within : heads ⊆ List.range NUM := fun i member => mem_range.mpr (inTable i member)
  have bound := (subperm_of_subset nodup within).length_le
  rwa [length_range] at bound

theorem Owned.awaited_inj (owned : Owned disk) {i : Nat} (awaits : disk.awaited t = some i)
    (awaitsToo : disk.awaited other = some i) : t = other := by
  rcases awaited_eq_some.mp awaits with ⟨idx, _, isSent, isOp⟩
  rcases awaited_eq_some.mp awaitsToo with ⟨idx', _, isSent', isOp'⟩
  have sameGet : idx.get .op = idx'.get .op := isOp.trans isOp'.symm
  exact (owned.eq_of_get (DiskPc.request_of_sent isSent) (DiskPc.request_of_sent isSent')
    sameGet).1

variable [DecidableEq Task]

theorem Owned.locked_update (owned : Owned disk) {pc : DiskPc} {lock : Option (Holder Task)}
    (mine : pc.locked = true ↔ lock = some (.task t))
    (others : ∀ other, other ≠ t → (disk.lock = some (.task other) ↔ lock = some (.task other)))
    (other : Task) :
    (update disk.pc t pc other).locked = true ↔ lock = some (.task other) := by
  by_cases same : other = t
  · rw [same, update_self]
    exact mine
  · rw [update_of_ne same, owned.locked, others other same]

theorem Disk.format_chain (disk : Disk Task) (write : Bool) (blockno : Nat)
    (distinct : ∀ {part part'}, idx.get part = idx.get part' → part = part') :
    (disk.format t write blockno idx).Chain t idx := by
  have opNotData : idx.op ≠ idx.data := fun same => by cases @distinct .op .data same
  have opNotStatus : idx.op ≠ idx.status := fun same => by cases @distinct .op .status same
  have dataNotStatus : idx.data ≠ idx.status := fun same => by cases @distinct .data .status same
  have opDesc : (disk.format t write blockno idx).desc idx.op =
      ⟨.op idx.op, 16, VRING_DESC_F_NEXT, idx.data⟩ := by
    simp [format, update_of_ne opNotStatus, update_of_ne opNotData]
  have dataDesc : (disk.format t write blockno idx).desc idx.data =
      ⟨.data t, BSIZE, (if write then 0 else VRING_DESC_F_WRITE) ||| VRING_DESC_F_NEXT,
        idx.status⟩ := by
    simp [format, update_of_ne dataNotStatus]
  have statusDesc : (disk.format t write blockno idx).desc idx.status =
      ⟨.status idx.op, 1, VRING_DESC_F_WRITE, 0⟩ := by
    simp [format]
  refine ⟨⟨?_, ?_, ?_, ?_, ?_⟩, ?_, ?_, ?_⟩
  · rw [opDesc]
    show VRING_DESC_F_NEXT &&& VRING_DESC_F_NEXT ≠ 0
    decide
  · rw [opDesc]
  · rw [dataDesc]
    show ((if write then 0 else VRING_DESC_F_WRITE) ||| VRING_DESC_F_NEXT) &&&
      VRING_DESC_F_NEXT ≠ 0
    cases write <;> decide
  · rw [dataDesc]
  · rw [statusDesc]
    show VRING_DESC_F_WRITE &&& VRING_DESC_F_NEXT = 0
    decide
  · rw [dataDesc]
  · rw [statusDesc]
  · simp [format]

def Disk.prepared (disk : Disk Task) (t : Task) (write : Bool) (blockno : Nat) (idx : Idx) :
    Disk Task :=
  ((disk.takeDesc idx).format t write blockno idx).setPc t (.notify idx)

theorem Disk.setPc_pc_self (disk : Disk Task) (pc : DiskPc) : (disk.setPc t pc).pc t = pc :=
  update_self _ _ _

theorem Disk.setPc_pc_of_ne (disk : Disk Task) (pc : DiskPc) (different : other ≠ t) :
    (disk.setPc t pc).pc other = disk.pc other :=
  update_of_ne different _ _

section
variable (disk : Disk Task)

theorem Disk.prepared_pc_self (write : Bool) (blockno : Nat) :
    (disk.prepared t write blockno idx).pc t = .notify idx := setPc_pc_self _ _

theorem Disk.prepared_pc_of_ne (write : Bool) (blockno : Nat)
    (different : other ≠ t) : (disk.prepared t write blockno idx).pc other = disk.pc other :=
  setPc_pc_of_ne _ _ different

theorem Disk.prepared_held_self (write : Bool) (blockno : Nat) (part : Part) :
    (disk.prepared t write blockno idx).held (t, part) = some (idx.get part) := by
  rw [Disk.held, prepared_pc_self]
  rfl

end

theorem Owned.allocate (owned : Owned disk) {write : Bool} {blockno : Nat}
    (atPc : disk.pc t = .alloc write blockno) (fresh : disk.Fresh idx) :
    Owned (disk.prepared t write blockno idx) := by
  have mine : disk.lock = some (.task t) := owned.mine atPc rfl
  refine ⟨owned.locked_update ⟨fun _ => mine, fun _ => rfl⟩ fun _ _ => Iff.rfl, ?_, ?_⟩
  · refine @Assigned.grant _ _ _ _ owned.assigned (fun site => site.1 = t) _ _ ?_ ?_ ?_ ?_ ?_
    · rintro ⟨other, part⟩ different
      rw [Disk.held, prepared_pc_of_ne _ _ _ different, Disk.held]
    · rintro ⟨_, part⟩ rfl
      rw [Disk.held, atPc]
      rfl
    · rintro ⟨_, part⟩ i rfl holds
      rw [prepared_held_self] at holds
      cases holds
      exact fresh.not_marked part
    · rintro ⟨_, part⟩ ⟨_, part'⟩ i rfl rfl holds holds'
      rw [prepared_held_self] at holds holds'
      cases holds
      rw [fresh.distinct (Option.some.inj holds').symm]
    · intro i
      rw [marked_iff, marked_iff]
      by_cases isPart : ∃ part, idx.get part = i
      · rcases isPart with ⟨part, rfl⟩
        exact iff_of_true ⟨fresh.inTable part, update_part part⟩
          (.inr ⟨(t, part), rfl, disk.prepared_held_self write blockno part⟩)
      · have sameFree : (disk.prepared t write blockno idx).free i = disk.free i :=
          update_other fun part same => isPart ⟨part, same⟩
        rw [sameFree]
        refine ⟨.inl, ?_⟩
        rintro (wasMarked | ⟨⟨_, part⟩, rfl, holds⟩)
        · exact wasMarked
        · rw [prepared_held_self] at holds
          exact absurd ⟨part, Option.some.inj holds⟩ isPart
  · intro other idx' isRequest
    by_cases same : other = t
    · subst same
      rw [prepared_pc_self] at isRequest
      cases isRequest
      exact (format_chain _ write blockno fresh.distinct).congr (fun _ => rfl) rfl
    · rw [prepared_pc_of_ne _ _ _ same] at isRequest
      have elsewhere (part' part : Part) : idx.get part ≠ idx'.get part' :=
        (ne_of_marked (owned.marked_get isRequest part') (fresh.isFree part)).symm
      refine (owned.chains isRequest).congr (fun part' => ?_) ?_
      · exact update_other (elsewhere part')
      · have notMine : idx'.op ≠ idx.op := (elsewhere .op .op).symm
        simp [Disk.prepared, Disk.setPc, Disk.format, Disk.takeDesc, update_of_ne notMine]

def Disk.dropped (disk : Disk Task) (t : Task) (idx : Idx) : Disk Task :=
  let disk := { disk with
    info := update disk.info idx.op { disk.info idx.op with b := none } }
  { disk.dropDesc idx with lock := none }.setPc t .idle

theorem Owned.virtioDiskFree (owned : Owned disk) (atPc : disk.pc t = .wait idx) :
    disk.virtioDiskFree t idx = .ok (disk.dropped t idx) := by
  have isRequest : (disk.pc t).request = some idx := by rw [atPc]; rfl
  rcases (owned.chains isRequest).toLinked with ⟨opFlags, opNext, dataFlags, dataNext, statusFlags⟩
  have freed : Disk.freeChain { disk with
      info := update disk.info idx.op { disk.info idx.op with b := none } } idx.op = _ :=
    freeChain_ok ⟨opFlags, opNext, dataFlags, dataNext, statusFlags⟩
      (owned.lt_get isRequest) (owned.free_get isRequest)
      fun same => (owned.eq_of_get isRequest isRequest same).2
  rw [Disk.virtioDiskFree]
  simp only [freed]
  rfl

theorem Owned.drop (owned : Owned disk) (atPc : disk.pc t = .wait idx) :
    Owned (disk.dropped t idx) := by
  have isRequest : (disk.pc t).request = some idx := by rw [atPc]; rfl
  have mine : disk.lock = some (.task t) := owned.mine atPc rfl
  refine ⟨owned.locked_update ⟨by rintro ⟨⟩, by rintro ⟨⟩⟩
    (others_of_free (.inr mine) (.inl rfl)), ?_, ?_⟩
  · refine @Assigned.release _ _ _ _ owned.assigned (fun site => site.1 = t) _ _ ?_ ?_ ?_
    · rintro ⟨other, part⟩ different
      simp only [Disk.held, Disk.dropped, Disk.setPc]
      rw [update_of_ne different]
      rfl
    · rintro ⟨_, part⟩ rfl
      simp only [Disk.held, Disk.dropped, Disk.setPc, update_self]
      rfl
    · intro i
      rw [marked_iff, marked_iff]
      by_cases isPart : ∃ part, idx.get part = i
      · rcases isPart with ⟨part, rfl⟩
        have isFree : (disk.dropped t idx).free (idx.get part) = true := update_part part
        rw [isFree]
        refine iff_of_false (by rintro ⟨_, ⟨⟩⟩) ?_
        rintro ⟨_, elsewhere⟩
        exact elsewhere (t, part) rfl (held_get isRequest part)
      · have sameFree : (disk.dropped t idx).free i = disk.free i :=
          update_other fun part same => isPart ⟨part, same⟩
        rw [sameFree]
        refine ⟨fun wasMarked => ⟨wasMarked, ?_⟩, And.left⟩
        rintro ⟨_, part⟩ rfl holds
        rw [held_get isRequest part] at holds
        exact isPart ⟨part, Option.some.inj holds⟩
  · intro other idx' stillRequest
    by_cases same : other = t
    · subst same
      simp only [Disk.dropped, Disk.setPc, update_self] at stillRequest
      cases stillRequest
    · simp only [Disk.dropped, Disk.setPc, update_of_ne same] at stillRequest
      have wasRequest : (disk.pc other).request = some idx' := stillRequest
      have elsewhere (part' part : Part) : idx.get part ≠ idx'.get part' :=
        fun sameDesc => same (owned.eq_of_get isRequest wasRequest sameDesc).1.symm
      refine (owned.chains wasRequest).congr (fun part' => ?_) ?_
      · exact update_other (elsewhere part')
      · have notMine : idx'.op ≠ idx.op := (elsewhere .op .op).symm
        simp [Disk.dropped, Disk.setPc, Disk.dropDesc, update_of_ne notMine]

/-! ## Requests in flight -/

def Disk.clearedOf (disk : Disk Task) (t : Task) : Disk Task :=
  { disk with
    busy := update disk.busy t false
    usedIdx := disk.usedIdx + 1
    cleared := disk.cleared ++ [t] }

/-- The heads in flight are those that tasks wait for, and the histories agree with them. -/
structure Flight (disk : Disk Task) : Prop where
  stored : ∀ {t idx}, (disk.pc t).unsent = some idx →
    disk.busy t = true ∧ disk.avail.ring (disk.avail.idx.toNat % NUM) = idx.op
  nodup : disk.flying.Nodup
  flying_iff : ∀ i, i ∈ disk.flying ↔ ∃ t, disk.awaited t = some i
  status : ∀ i ∈ disk.usedQueue, (disk.info i).status = 0
  completed : disk.completed = disk.cleared ++ disk.usedQueue.filterMap fun i => (disk.info i).b
  counted : ∀ t, disk.cleared.count t + (disk.awaited t).toList.length = disk.requested.count t

namespace Flight

variable {i : Nat}

section
variable (flight : Flight disk)
include flight

section
variable (owned : Owned disk)
include owned

theorem owner (isFlying : i ∈ disk.flying) :
    ∃ t idx, disk.busy t = true ∧ (disk.pc t).sent = some idx ∧ idx.op = i ∧ disk.Chain t idx := by
  rcases (flight.flying_iff i).mp isFlying with ⟨t, awaits⟩
  rcases awaited_eq_some.mp awaits with ⟨idx, isBusy, isSent, isOp⟩
  exact ⟨t, idx, isBusy, isSent, isOp, owned.chains (DiskPc.request_of_sent isSent)⟩

theorem marked_of_flying (isFlying : i ∈ disk.flying) : disk.marked i = true := by
  rcases flight.owner owned isFlying with ⟨t, idx, _, isSent, rfl, _⟩
  exact owned.marked_get (DiskPc.request_of_sent isSent) .op

theorem awaited_of_flying
    (isRequest : (disk.pc t).request = some idx) (isFlying : idx.op ∈ disk.flying) :
    disk.busy t = true ∧ (disk.pc t).sent = some idx := by
  rcases flight.owner owned isFlying with ⟨other, idx', isBusy, isSent, sameOp, _⟩
  have isOther := DiskPc.request_of_sent isSent
  have sameGet : idx'.get .op = idx.get .op := sameOp
  rcases owned.eq_of_get isOther isRequest sameGet with ⟨rfl, _⟩
  rw [isRequest] at isOther
  cases isOther
  exact ⟨isBusy, isSent⟩

theorem lt_of_flying : ∀ i ∈ disk.flying, i < NUM :=
  fun _ isFlying => (marked_iff.mp (flight.marked_of_flying owned isFlying)).1

theorem length_lt (notFlying : i ∉ disk.flying) (inTable : i < NUM) : disk.flying.length < NUM :=
  length_le_num (nodup_cons.mpr ⟨notFlying, flight.nodup⟩) fun j member => by
    rcases mem_cons.mp member with rfl | isFlying
    · exact inTable
    · exact flight.lt_of_flying owned j isFlying

end

theorem keep {lock : Option (Holder Task)} {pc : Task → DiskPc}
    {desc : Nat → Desc Task} {free : Nat → Bool} (sent : ∀ t, (pc t).sent = (disk.pc t).sent)
    (unsent : ∀ t, (pc t).unsent = (disk.pc t).unsent) :
    Flight { disk with lock := lock, pc := pc, desc := desc, free := free } := by
  have sameAwaited : Disk.awaited { disk with lock := lock, pc := pc, desc := desc, free := free } =
      disk.awaited := by
    funext t
    rw [Disk.awaited, sent, Disk.awaited]
  refine ⟨?_, flight.nodup, ?_, flight.status, flight.completed, ?_⟩
  · intro t idx isUnsent
    rw [unsent] at isUnsent
    exact flight.stored isUnsent
  · rw [sameAwaited]
    exact flight.flying_iff
  · rw [sameAwaited]
    exact flight.counted

end

theorem divides : NUM ∣ 2 ^ 16 := by decide

theorem small : NUM < 2 ^ 16 := by decide

section
variable (flight : Flight disk)
include flight

theorem perm {heads : List Nat} (perm : heads.Perm disk.flying) :
    heads.Nodup ∧ ∀ i, i ∈ heads ↔ ∃ t, disk.awaited t = some i :=
  ⟨perm.nodup_iff.mpr flight.nodup, fun i => by rw [perm.mem_iff, flight.flying_iff]⟩

theorem take (untaken : disk.taken ≠ disk.avail.idx) :
    Flight { disk with
      taken := disk.taken + 1
      pending := disk.pending ++ [disk.avail.ring (disk.taken.toNat % NUM)] } := by
  have popped : disk.availQueue = _ := Ring.queue_pop divides untaken
  generalize disk.avail.ring (disk.taken.toNat % NUM) = head at popped ⊢
  have perm : (Ring.queue NUM disk.avail.ring (disk.taken + 1) disk.avail.idx ++
      (disk.pending ++ [head]) ++ disk.usedQueue).Perm disk.flying := by
    rw [Disk.flying, popped]
    refine List.Perm.append_right _ ?_
    rw [← append_assoc, cons_append]
    exact perm_append_singleton _ _
  rcases flight.perm perm with ⟨nodup, flying_iff⟩
  exact ⟨flight.stored, nodup, flying_iff, flight.status, flight.completed, flight.counted⟩

section
variable (owned : Owned disk)
include owned

theorem allocate {write : Bool} {blockno : Nat}
    (atPc : disk.pc t = .alloc write blockno) (fresh : disk.Fresh idx) :
    Flight (disk.prepared t write blockno idx) := by
  have mine : disk.lock = some (.task t) := owned.mine atPc rfl
  have notFlying : idx.op ∉ disk.flying := fun isFlying =>
    ne_of_marked (flight.marked_of_flying owned isFlying) (fresh.isFree .op) rfl
  have room := flight.length_lt owned notFlying (fresh.inTable .op)
  have sameFlying : (disk.prepared t write blockno idx).flying = disk.flying := by
    have sameAvail : (disk.prepared t write blockno idx).availQueue = disk.availQueue := by
      refine Ring.queue_store divides ?_ idx.op
      rw [length_flying] at room
      show disk.availQueue.length < NUM
      omega
    rw [Disk.flying, sameAvail]
    rfl
  have sameAwaited : (disk.prepared t write blockno idx).awaited = disk.awaited := by
    funext other
    by_cases same : other = t
    · subst same
      rw [awaited_of_not_sent (by rw [prepared_pc_self]; rfl),
        awaited_of_not_sent (by rw [atPc]; rfl)]
    · refine awaited_congr (update_of_ne same _ _) ?_
      rw [prepared_pc_of_ne _ _ _ same]
  have sameInfo : ∀ j ∈ disk.usedQueue,
      (disk.prepared t write blockno idx).info j = disk.info j := by
    intro j isUsed
    refine update_of_ne ?_ _ _
    rintro rfl
    exact notFlying (mem_flying_of_used isUsed)
  refine ⟨?_, sameFlying ▸ flight.nodup, sameFlying ▸ sameAwaited ▸ flight.flying_iff, ?_, ?_,
    sameAwaited ▸ flight.counted⟩
  · intro other idx' isUnsent
    by_cases same : other = t
    · subst same
      rw [prepared_pc_self] at isUnsent
      cases isUnsent
      exact ⟨update_self _ _ _, update_self _ _ _⟩
    · rw [prepared_pc_of_ne _ _ _ same] at isUnsent
      exact absurd (isUnsent.symm.trans (owned.alone mine same)) (Option.some_ne_none _)
  · intro j isUsed
    rw [sameInfo j isUsed]
    exact flight.status j isUsed
  · refine flight.completed.trans (congrArg _ (filterMap_congr ?_))
    intro j isUsed
    rw [sameInfo j isUsed]

theorem notify (atPc : disk.pc t = .notify idx) : Flight ({ disk with
      avail := { disk.avail with idx := disk.avail.idx + 1 }
      requested := disk.requested ++ [t] }.setPc t (.wait idx)) := by
  generalize isNext : Disk.setPc _ t (.wait idx) = next
  have pcSelf : next.pc t = .wait idx := by rw [← isNext, setPc_pc_self]
  have pcOther : ∀ other, other ≠ t → next.pc other = disk.pc other := by
    intro other different
    rw [← isNext, setPc_pc_of_ne _ _ different]
  have sameBusy : next.busy = disk.busy := by rw [← isNext]; rfl
  have sameUsed : next.usedQueue = disk.usedQueue := by rw [← isNext]; rfl
  have samePending : next.pending = disk.pending := by rw [← isNext]; rfl
  have mine : disk.lock = some (.task t) := owned.mine atPc rfl
  have isUnsent : (disk.pc t).unsent = some idx := by rw [atPc]; rfl
  have isRequest := DiskPc.request_of_unsent isUnsent
  rcases flight.stored isUnsent with ⟨isBusy, inRing⟩
  have notFlying : idx.op ∉ disk.flying := by
    intro isFlying
    have isSent := (flight.awaited_of_flying owned isRequest isFlying).2
    rw [atPc] at isSent
    cases isSent
  have room := flight.length_lt owned notFlying (owned.lt_get isRequest .op)
  have pushed : next.availQueue = disk.availQueue ++ [idx.op] := by
    rw [length_flying] at room
    have pushed := @Ring.queue_push _ _ disk.avail.ring disk.taken disk.avail.idx divides small
      (by show disk.availQueue.length < NUM; omega) idx.op
    rw [← inRing, update_eq_self, inRing] at pushed
    rw [← isNext]
    exact pushed
  have perm : next.flying.Perm (idx.op :: disk.flying) := by
    rw [Disk.flying, pushed, samePending, sameUsed, Disk.flying, append_assoc,
      append_assoc, append_assoc]
    exact perm_middle
  have notAwaited : disk.awaited t = none := awaited_of_not_sent (by rw [atPc]; rfl)
  have nowAwaited : next.awaited t = some idx.op :=
    awaited_eq_some.mpr ⟨idx, by rw [sameBusy]; exact isBusy, by rw [pcSelf]; rfl, rfl⟩
  have sameAwaited : ∀ other, other ≠ t → next.awaited other = disk.awaited other := fun other
      different => awaited_congr (by rw [sameBusy]) (by rw [pcOther other different])
  refine ⟨?_, ?_, ?_, ?_, ?_, ?_⟩
  · intro other idx' stillUnsent
    by_cases same : other = t
    · rw [same, pcSelf] at stillUnsent
      cases stillUnsent
    · rw [pcOther other same, owned.alone mine same] at stillUnsent
      cases stillUnsent
  · rw [perm.nodup_iff, nodup_cons]
    exact ⟨notFlying, flight.nodup⟩
  · intro i
    rw [perm.mem_iff, mem_cons, flight.flying_iff]
    constructor
    · rintro (rfl | ⟨other, awaits⟩)
      · exact ⟨t, nowAwaited⟩
      · have different : other ≠ t := by
          rintro rfl
          rw [notAwaited] at awaits
          cases awaits
        exact ⟨other, (sameAwaited other different).trans awaits⟩
    · rintro ⟨other, awaits⟩
      by_cases same : other = t
      · rw [same, nowAwaited] at awaits
        exact .inl (Option.some.inj awaits).symm
      · exact .inr ⟨other, (sameAwaited other same) ▸ awaits⟩
  · rw [sameUsed, ← isNext]
    exact flight.status
  · rw [sameUsed, ← isNext]
    exact flight.completed
  · intro other
    have before := flight.counted other
    have cleared : next.cleared = disk.cleared := by rw [← isNext]; rfl
    have requested : next.requested = disk.requested ++ [t] := by rw [← isNext]; rfl
    rw [cleared, requested, count_append]
    by_cases same : other = t
    · subst same
      rw [notAwaited] at before
      rw [nowAwaited, ← before]
      simp
    · rw [sameAwaited other same, before]
      simp [Ne.symm same]

theorem drop (atPc : disk.pc t = .wait idx) (notBusy : disk.busy t = false) :
    Flight (disk.dropped t idx) := by
  have mine : disk.lock = some (.task t) := owned.mine atPc rfl
  have isRequest : (disk.pc t).request = some idx := by rw [atPc]; rfl
  have pcSelf : (disk.dropped t idx).pc t = .idle := setPc_pc_self _ _
  have pcOther : ∀ other, other ≠ t → (disk.dropped t idx).pc other = disk.pc other :=
    fun other different => setPc_pc_of_ne _ _ different
  have sameAwaited : (disk.dropped t idx).awaited = disk.awaited := by
    funext other
    by_cases same : other = t
    · rw [same, awaited_of_not_sent (by rw [pcSelf]; rfl), Disk.awaited, notBusy]
      rfl
    · exact awaited_congr rfl (by rw [pcOther other same])
  have sameInfo : ∀ j ∈ disk.usedQueue, (disk.dropped t idx).info j = disk.info j := by
    intro j isUsed
    refine update_of_ne ?_ _ _
    rintro rfl
    have isBusy := (flight.awaited_of_flying owned isRequest (mem_flying_of_used isUsed)).1
    rw [notBusy] at isBusy
    cases isBusy
  refine ⟨?_, flight.nodup, sameAwaited ▸ flight.flying_iff, ?_, ?_, sameAwaited ▸ flight.counted⟩
  · intro other idx' stillUnsent
    by_cases same : other = t
    · rw [same, pcSelf] at stillUnsent
      cases stillUnsent
    · rw [pcOther other same, owned.alone mine same] at stillUnsent
      cases stillUnsent
  · intro j isUsed
    rw [sameInfo j isUsed]
    exact flight.status j isUsed
  · refine flight.completed.trans (congrArg _ (filterMap_congr ?_))
    intro j isUsed
    rw [sameInfo j isUsed]

theorem seen (unseen : disk.usedIdx ≠ disk.used.idx) :
    ∃ t, disk.virtioDiskSeen = .ok (disk.clearedOf t) ∧ Flight (disk.clearedOf t) := by
  have popped : disk.usedQueue = _ := Ring.queue_pop divides unseen
  generalize isId : disk.used.ring (disk.usedIdx.toNat % NUM) = id at popped
  have isUsed : id ∈ disk.usedQueue := by
    rw [popped]
    exact mem_cons_self
  rcases flight.owner owned (mem_flying_of_used isUsed) with
    ⟨t, idx, isBusy, isSent, rfl, chain⟩
  refine ⟨t, ?_, ?_⟩
  · rw [Disk.virtioDiskSeen]
    simp only [isId, flight.status _ isUsed, chain.buffer]
    rfl
  have busySelf : (disk.clearedOf t).busy t = false := update_self _ _ _
  have busyOther : ∀ other, other ≠ t → (disk.clearedOf t).busy other = disk.busy other :=
    fun other different => update_of_ne different _ _
  have pop : disk.usedQueue = idx.op :: (disk.clearedOf t).usedQueue := popped
  have perm : disk.flying.Perm (idx.op :: (disk.clearedOf t).flying) := by
    rw [Disk.flying, pop, Disk.flying]
    exact perm_middle
  have nodup : idx.op ∉ (disk.clearedOf t).flying ∧ (disk.clearedOf t).flying.Nodup := by
    rw [← nodup_cons, ← perm.nodup_iff]
    exact flight.nodup
  have wasAwaited : disk.awaited t = some idx.op :=
    awaited_eq_some.mpr ⟨idx, isBusy, isSent, rfl⟩
  have notAwaited : (disk.clearedOf t).awaited t = none := by
    rw [Disk.awaited, busySelf]
    rfl
  have sameAwaited : ∀ other, other ≠ t →
      (disk.clearedOf t).awaited other = disk.awaited other := fun other
      different => awaited_congr (busyOther other different) rfl
  refine ⟨?_, nodup.2, ?_, ?_, ?_, ?_⟩
  · intro other idx' isUnsent
    have different : other ≠ t := by
      rintro rfl
      cases isUnsent.symm.trans (DiskPc.unsent_of_sent isSent)
    rcases flight.stored isUnsent with ⟨isBusyToo, inRing⟩
    exact ⟨(busyOther other different).trans isBusyToo, inRing⟩
  · intro i
    have before := flight.flying_iff i
    rw [perm.mem_iff, mem_cons] at before
    constructor
    · intro isFlying
      rcases before.mp (.inr isFlying) with ⟨other, awaits⟩
      have different : other ≠ t := by
        rintro rfl
        rw [wasAwaited] at awaits
        cases awaits
        exact nodup.1 isFlying
      exact ⟨other, (sameAwaited other different).trans awaits⟩
    · rintro ⟨other, awaits⟩
      have different : other ≠ t := by
        rintro rfl
        rw [notAwaited] at awaits
        cases awaits
      rw [sameAwaited other different] at awaits
      rcases before.mpr ⟨other, awaits⟩ with rfl | isFlying
      · exact absurd (owned.awaited_inj awaits wasAwaited) different
      · exact isFlying
  · intro i stillUsed
    have wasUsed : i ∈ disk.usedQueue := by
      rw [pop]
      exact mem_cons_of_mem _ stillUsed
    exact flight.status i wasUsed
  · have before := flight.completed
    rw [pop, filterMap_cons_some (f := fun i => (disk.info i).b) chain.buffer,
      append_cons] at before
    exact before
  · intro other
    have before := flight.counted other
    have cleared : (disk.clearedOf t).cleared = disk.cleared ++ [t] := rfl
    have requested : (disk.clearedOf t).requested = disk.requested := rfl
    rw [cleared, requested, count_append, ← before]
    by_cases same : other = t
    · subst same
      rw [notAwaited, wasAwaited]
      simp
    · rw [sameAwaited other same]
      simp [Ne.symm same]

theorem complete (isPending : i ∈ disk.pending) :
    ∃ t, disk.deviceComplete i = some (.ok (disk.completedOf t i)) ∧
      Flight (disk.completedOf t i) := by
  have isFlying : i ∈ disk.flying :=
    mem_append_left _ (mem_append_right _ isPending)
  rcases flight.owner owned isFlying with ⟨t, idx, isBusy, isSent, rfl, chain⟩
  refine ⟨t, ?_, ?_⟩
  · rw [Disk.deviceComplete]
    simp only [chain.opNext, chain.dataNext, chain.dataAddr, chain.statusAddr]
    rw [if_pos isPending]
    rfl
  have room : disk.usedQueue.length < NUM := by
    have bound := length_le_num flight.nodup (flight.lt_of_flying owned)
    have nonempty := length_pos_of_mem isPending
    rw [length_flying] at bound
    omega
  have pushed : (disk.completedOf t idx.op).usedQueue = disk.usedQueue ++ [idx.op] :=
    Ring.queue_push divides small room idx.op
  have perm : (disk.completedOf t idx.op).flying.Perm disk.flying := by
    rw [Disk.flying, pushed, Disk.flying]
    have erased : disk.pending.Perm (disk.pending.erase idx.op ++ [idx.op]) :=
      (perm_cons_erase isPending).trans (perm_append_singleton _ _).symm
    calc disk.availQueue ++ disk.pending.erase idx.op ++ (disk.usedQueue ++ [idx.op])
        |>.Perm (disk.availQueue ++ (disk.pending.erase idx.op ++ [idx.op]) ++ disk.usedQueue) := by
          rw [append_assoc, append_assoc, append_assoc]
          exact (perm_append_comm.append_left _).append_left _
      _ |>.Perm (disk.availQueue ++ disk.pending ++ disk.usedQueue) :=
          (erased.symm.append_left _).append_right _
  rcases flight.perm perm with ⟨nodup, flying_iff⟩
  refine ⟨flight.stored, nodup, flying_iff, ?_, ?_, flight.counted⟩
  · intro j isUsed
    by_cases same : j = idx.op
    · subst same
      simp [Disk.completedOf]
    · rw [pushed, mem_append, mem_singleton] at isUsed
      rcases isUsed with isUsed | isLast
      · simp only [Disk.completedOf, update_of_ne same]
        exact flight.status j isUsed
      · exact absurd isLast same
  · simp only [completedOf_buffer]
    have last : [idx.op].filterMap (fun j => (disk.info j).b) = [t] :=
      filterMap_cons_some (f := fun j => (disk.info j).b) chain.buffer
    rw [pushed, filterMap_append, last, ← append_assoc]
    exact congrArg (fun buffers => buffers ++ [t]) flight.completed

end

end
end Flight

/-! ## Steps and runs -/

structure Sound (disk : Disk Task) : Prop where
  owned : Owned disk
  flight : Flight disk

theorem sound_init : Sound (Disk.init : Disk Task) where
  owned := by
    refine ⟨fun t => ⟨by rintro ⟨⟩, by rintro ⟨⟩⟩, ⟨?_, ?_⟩, by rintro t idx ⟨⟩⟩
    · intro i
      refine iff_of_false ?_ (by rintro ⟨_, ⟨⟩⟩)
      rw [marked_iff]
      rintro ⟨_, ⟨⟩⟩
    · rintro site other i ⟨⟩
  flight := by
    have noAvail : (Disk.init : Disk Task).availQueue = [] := Ring.queue_self _ _ _
    have noUsed : (Disk.init : Disk Task).usedQueue = [] := Ring.queue_self _ _ _
    have noFlying : (Disk.init : Disk Task).flying = [] := by
      rw [Disk.flying, noAvail, noUsed]
      rfl
    refine ⟨by rintro t idx ⟨⟩, ?_, ?_, ?_, ?_, fun t => rfl⟩
    · rw [noFlying]
      exact nodup_nil
    · intro i
      rw [noFlying]
      exact iff_of_false not_mem_nil (by rintro ⟨t, ⟨⟩⟩)
    · rw [noUsed]
      intro i isUsed
      cases isUsed
    · rw [noUsed]
      rfl

namespace Sound

section
variable (sound : Sound disk)
include sound

variable {lock : Option (Holder Task)}

theorem relock {was : DiskPc} (atPc : disk.pc t = was) (pc : DiskPc)
    (mine : pc.locked = true ↔ lock = some (.task t))
    (others : ∀ other, other ≠ t → (disk.lock = some (.task other) ↔ lock = some (.task other)))
    (request : pc.request = was.request) (sent : pc.sent = was.sent)
    (unsent : pc.unsent = was.unsent) {desc : Nat → Desc Task}
    (sameDesc : ∀ i, disk.marked i = true → desc i = disk.desc i) :
    Sound ({ disk with desc := desc, lock := lock }.setPc t pc) := by
  subst atPc
  have same {α : Type} (view : DiskPc → α) (here : view pc = view (disk.pc t)) (other : Task) :
      view (update disk.pc t pc other) = view (disk.pc other) := by
    by_cases isT : other = t
    · rw [isT, update_self, here]
    · rw [update_of_ne isT]
  exact ⟨sound.owned.keep (sound.owned.locked_update mine others) (same _ request) rfl sameDesc
    fun _ => rfl, sound.flight.keep (same _ sent) (same _ unsent)⟩

theorem relockIntr (before : ∀ t, disk.lock ≠ some (.task t)) (after : ∀ t, lock ≠ some (.task t)) :
    Sound { disk with lock := lock } :=
  ⟨sound.owned.keep (fun t => (sound.owned.locked t).trans (iff_of_false (before t) (after t)))
    (fun _ => rfl) rfl (fun _ _ => rfl) fun _ => rfl,
    sound.flight.keep (fun _ => rfl) fun _ => rfl⟩

variable {result : Except DiskFault (Disk Task)}

theorem spinGet {was pc : DiskPc} (stepped : disk.spinGet t pc = some result)
    (atPc : disk.pc t = was) (locked : pc.locked = true) (request : pc.request = was.request)
    (sent : pc.sent = was.sent) (unsent : pc.unsent = was.unsent) :
    ∃ next, result = .ok next ∧ Sound next := by
  rcases Option.ite_none_right_eq_some.mp stepped with ⟨isFree, ⟨⟩⟩
  exact ⟨_, rfl, sound.relock atPc pc ⟨fun _ => rfl, fun _ => locked⟩
    (others_of_free (.inl isFree) (.inr rfl)) request sent unsent fun _ _ => rfl⟩

theorem virtioDiskRw (stepped : disk.virtioDiskRw t = some result) :
    ∃ next, result = .ok next ∧ Sound next := by
  rw [Disk.virtioDiskRw] at stepped
  cases atPc : disk.pc t with
  | idle =>
    rw [atPc] at stepped
    cases stepped
  | enter | sleepDesc | sleepBuf =>
    rw [atPc] at stepped
    exact sound.spinGet stepped atPc rfl rfl rfl rfl
  | alloc write blockno =>
    rw [atPc] at stepped
    cases stepped
    rw [Disk.virtioDiskAlloc]
    have mine : disk.lock = some (.task t) := sound.owned.mine atPc rfl
    rcases disk.alloc3Desc_cases with ⟨desc, isNone, sameDesc⟩ | ⟨idx, isSome, fresh⟩
    · rw [isNone]
      exact ⟨_, rfl, sound.relock atPc (.sleepDesc write blockno)
        (iff_of_false (by rintro ⟨⟩) (by rintro ⟨⟩)) (others_of_free (.inr mine) (.inl rfl))
        rfl rfl rfl sameDesc⟩
    · rw [isSome]
      exact ⟨_, rfl, sound.owned.allocate atPc fresh, sound.flight.allocate sound.owned atPc fresh⟩
  | notify idx =>
    rw [atPc] at stepped
    cases stepped
    have mine : disk.lock = some (.task t) := sound.owned.mine atPc rfl
    have request (other : Task) :
        (update disk.pc t (.wait idx) other).request = (disk.pc other).request := by
      by_cases same : other = t
      · rw [same, update_self, atPc]
        rfl
      · rw [update_of_ne same]
    exact ⟨_, rfl, sound.owned.keep
      (sound.owned.locked_update ⟨fun _ => mine, fun _ => rfl⟩ fun _ _ => Iff.rfl)
      request rfl (fun _ _ => rfl) fun _ => rfl, sound.flight.notify sound.owned atPc⟩
  | wait idx =>
    rw [atPc] at stepped
    have mine : disk.lock = some (.task t) := sound.owned.mine atPc rfl
    simp only at stepped
    split at stepped
    · cases stepped
      exact ⟨_, rfl, sound.relock atPc (.sleepBuf idx)
        (iff_of_false (by rintro ⟨⟩) (by rintro ⟨⟩)) (others_of_free (.inr mine) (.inl rfl))
        rfl rfl rfl fun _ _ => rfl⟩
    · rename_i notBusy
      cases stepped
      exact ⟨_, sound.owned.virtioDiskFree atPc, sound.owned.drop atPc,
        sound.flight.drop sound.owned atPc (Bool.not_eq_true _ ▸ notBusy)⟩

theorem virtioDiskIntr (stepped : disk.virtioDiskIntr = some result) :
    ∃ next, result = .ok next ∧ Sound next := by
  rw [Disk.virtioDiskIntr] at stepped
  split at stepped
  · rename_i isFree
    cases stepped
    exact ⟨_, rfl, sound.relockIntr (by rw [isFree]; rintro t ⟨⟩) (by rintro t ⟨⟩)⟩
  · rename_i isIntr
    split at stepped
    · rename_i unseen
      cases stepped
      rcases sound.flight.seen sound.owned unseen with ⟨t, isOk, flight⟩
      exact ⟨_, isOk, sound.owned.keep sound.owned.locked (fun _ => rfl) rfl (fun _ _ => rfl)
        fun _ => rfl, flight⟩
    · cases stepped
      exact ⟨_, rfl, sound.relockIntr (by rw [isIntr]; rintro t ⟨⟩) (by rintro t ⟨⟩)⟩
  · cases stepped

theorem act {label : DiskLabel Task} (stepped : disk.act label = some result) :
    ∃ next, result = .ok next ∧ Sound next := by
  cases label with
  | call t write blockno =>
    rw [Disk.act] at stepped
    split at stepped
    · rename_i atPc
      cases stepped
      have notMine : disk.lock ≠ some (.task t) := fun mine => by
        have locked := (sound.owned.locked t).mpr mine
        rw [atPc] at locked
        cases locked
      exact ⟨_, rfl, sound.relock atPc (.enter write blockno) (iff_of_false (by rintro ⟨⟩) notMine)
        (fun _ _ => Iff.rfl) rfl rfl rfl fun _ _ => rfl⟩
    · cases stepped
  | rw t => exact sound.virtioDiskRw stepped
  | intr => exact sound.virtioDiskIntr stepped
  | take =>
    rw [Disk.act, Disk.deviceTake] at stepped
    split at stepped
    · cases stepped
    · rename_i untaken
      cases stepped
      exact ⟨_, rfl, sound.owned.keep sound.owned.locked (fun _ => rfl) rfl (fun _ _ => rfl)
        fun _ => rfl, sound.flight.take untaken⟩
  | complete i =>
    by_cases isPending : i ∈ disk.pending
    · rcases sound.flight.complete sound.owned isPending with ⟨t, isOk, flight⟩
      cases isOk.symm.trans stepped
      exact ⟨_, rfl, sound.owned.keep sound.owned.locked (fun _ => rfl) rfl (fun _ _ => rfl)
        (disk.completedOf_buffer t i), flight⟩
    · rw [Disk.act, Disk.deviceComplete] at stepped
      simp only [if_neg isPending] at stepped
      cases stepped

end

theorem of_reachable (reached : (diskMachine Task).Reachable disk) : Sound disk := by
  refine reached.invariant Sound ?_ ?_
  · rintro disk rfl
    exact sound_init
  · intro disk label next sound _ stepped
    rcases Option.bind_eq_some_iff.mp stepped with ⟨result, acted, isNext⟩
    rcases sound.act acted with ⟨after, rfl, soundAfter⟩
    cases isNext
    exact soundAfter

theorem unseen (sound : Sound disk) :
    ∃ buffers : List Task, disk.completed = disk.cleared ++ buffers ∧
      buffers.map some = disk.usedQueue.map fun i => (disk.info i).b := by
  refine ⟨_, sound.flight.completed, ?_⟩
  have isBuffer : ∀ i ∈ disk.usedQueue, ∃ t, (disk.info i).b = some t := by
    intro i isUsed
    rcases sound.flight.owner sound.owned (mem_flying_of_used isUsed) with
      ⟨t, idx, _, _, rfl, chain⟩
    exact ⟨t, chain.buffer⟩
  generalize disk.usedQueue = used at isBuffer
  induction used with
  | nil => rfl
  | cons head rest induction =>
    rcases isBuffer head mem_cons_self with ⟨t, found⟩
    rw [filterMap_cons_some (f := fun i => (disk.info i).b) found, map_cons,
      map_cons, found, induction fun i isRest => isBuffer i (mem_cons_of_mem _ isRest)]

theorem completed_of_clear (sound : Sound disk) (notBusy : disk.busy t = false) :
    disk.completed.count t = disk.requested.count t := by
  have notAwaited : disk.awaited t = none := by
    rw [Disk.awaited, notBusy]
    rfl
  have notUnseen : t ∉ disk.usedQueue.filterMap fun i => (disk.info i).b := by
    intro member
    rcases mem_filterMap.mp member with ⟨i, isUsed, isBuffer⟩
    rcases sound.flight.owner sound.owned (mem_flying_of_used isUsed) with
      ⟨other, idx, isBusy, _, rfl, chain⟩
    rw [chain.buffer] at isBuffer
    cases isBuffer
    rw [notBusy] at isBusy
    cases isBusy
  have counted := sound.flight.counted t
  rw [notAwaited] at counted
  rw [sound.flight.completed, count_append, count_eq_zero_of_not_mem notUnseen]
  exact counted

end Sound

/-- What the driver and the device agree on. -/
structure DiskSafe (disk : Disk Task) : Prop where
  /-- Every descriptor is free or in the chain of a request. -/
  partition : ∀ i < NUM, disk.free i = false ↔
    ∃ t idx part, (disk.pc t).request = some idx ∧ idx.get part = i
  /-- A request has a chain of three descriptors of the table. -/
  chain : ∀ {t idx}, (disk.pc t).request = some idx →
    disk.Linked idx ∧ ∀ part, idx.get part < NUM
  /-- No descriptor is twice in chains. -/
  disjoint : ∀ {t other idx idx' part part'}, (disk.pc t).request = some idx →
    (disk.pc other).request = some idx' → idx.get part = idx'.get part' → t = other ∧ part = part'
  /-- The handler has seen every used entry once, in their order, up to those in the queue. -/
  consumed : ∃ buffers : List Task, disk.completed = disk.cleared ++ buffers ∧
    buffers.map some = disk.usedQueue.map fun i => (disk.info i).b
  /-- If the flag of a buffer is clear, the device has completed all requests for it. -/
  cleared : ∀ t, disk.busy t = false → disk.completed.count t = disk.requested.count t
  /-- No step of anybody faults. -/
  noFault : ∀ label fault, disk.act label ≠ some (.error fault)

theorem diskSafe_of_reachable (reached : (diskMachine Task).Reachable disk) : DiskSafe disk := by
  have sound := Sound.of_reachable reached
  refine ⟨?_, ?_, sound.owned.eq_of_get, sound.unseen, fun t => sound.completed_of_clear, ?_⟩
  · intro i inTable
    have marked := sound.owned.assigned.marked_iff i
    rw [marked_iff] at marked
    constructor
    · intro isTaken
      rcases marked.mp ⟨inTable, isTaken⟩ with ⟨⟨t, part⟩, holds⟩
      rcases Option.map_eq_some_iff.mp holds with ⟨idx, isRequest, isPart⟩
      exact ⟨t, idx, part, isRequest, isPart⟩
    · rintro ⟨t, idx, part, isRequest, rfl⟩
      exact sound.owned.free_get isRequest part
  · intro t idx isRequest
    exact ⟨(sound.owned.chains isRequest).toLinked, sound.owned.lt_get isRequest⟩
  · intro label fault stepped
    rcases sound.act stepped with ⟨next, ⟨⟩, _⟩

def diskRun : List (DiskLabel (Fin 2)) :=
  [.call 0 true 7, .call 1 false 9, .rw 0, .rw 0, .rw 0, .rw 0, .rw 1, .rw 1, .take, .rw 1, .rw 1,
    .take, .complete 3, .intr, .intr, .intr, .rw 1, .rw 1, .complete 0]

theorem diskSafe_of_diskRun : ∃ disk, (diskMachine (Fin 2)).run .init diskRun = some disk ∧
    disk.lock = none ∧ disk.completed = [1, 0] ∧ disk.cleared = [1] ∧ DiskSafe disk := by
  have ran : ((diskMachine (Fin 2)).run .init diskRun).any (fun disk =>
      disk.lock = none ∧ disk.completed = [1, 0] ∧ disk.cleared = [1]) = true := by
    decide +kernel
  rcases (Option.any_eq_true _ _).mp ran with ⟨disk, isDisk, found⟩
  rcases of_decide_eq_true found with ⟨isFree, completed, cleared⟩
  exact ⟨disk, isDisk, isFree, completed, cleared,
    diskSafe_of_reachable (.run (.initial rfl) isDisk)⟩

end Tnix.Dev
