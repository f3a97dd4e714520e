import Tnix.Foundation.KeyedCache
import Tnix.Foundation.Tally
import Tnix.Fs.Bio

/-! # The block cache is transparent -/

namespace Tnix.Fs

open Function

namespace BioPc

@[simp] def reference : BioPc → Option (Fin NIOBUF)
  | .bget index _ _ => some index
  | .brelse index => some index
  | _ => none

@[simp] def filling : BioPc → Option (Fin NIOBUF)
  | .bread index _ _ => some index
  | .filled index _ _ => some index
  | _ => none

end BioPc

namespace Bcache

variable {Task : Type}

def key (state : Bcache Task) (index : Fin NIOBUF) : UInt32 × UInt32 :=
  ((state.bufs index).dev, (state.bufs index).blockno)

def Used (state : Bcache Task) (index : Fin NIOBUF) : Prop :=
  (state.bufs index).valid = true ∨ 0 < (state.bufs index).refc

def PcOk (state : Bcache Task) (task : Task) : BioPc → Prop
  | .idle => True
  | .bget index dev blockno => state.key index = (dev, blockno)
  | .bread index dev blockno => (state.bufs index).lock = some task ∧
      state.key index = (dev, blockno) ∧ state.unwritten index = false
  | .filled index dev blockno => (state.bufs index).lock = some task ∧
      state.key index = (dev, blockno) ∧ state.unwritten index = false ∧
      (state.bufs index).data = state.disk dev blockno
  | .returned index dev blockno => (state.bufs index).lock = some task ∧
      state.key index = (dev, blockno) ∧ state.unwritten index = false ∧
      (state.bufs index).valid = true
  | .bzero index => (state.bufs index).lock = some task ∧
      (state.bufs index).valid = true
  | .brelse index => (state.bufs index).valid = true

structure BufOk (state : Bcache Task) (index : Fin NIOBUF) : Prop where
  clean : (state.bufs index).valid = true → state.unwritten index = false →
    (state.bufs index).data =
      state.disk (state.bufs index).dev (state.bufs index).blockno
  unlocked : (state.bufs index).lock = none → state.unwritten index = false
  held : ∀ task, (state.bufs index).lock = some task →
    (state.bufs index).valid = true ∨ (state.pc task).filling = some index

variable [Fintype Task]

structure Invariant (state : Bcache Task) : Prop where
  keys : KeyedCache state.head state.key state.Used (0, 0)
  references : ∀ index, (state.bufs index).refc =
    (if (state.bufs index).lock = none then 0 else 1) +
      tally (fun task => (state.pc task).reference) index
  tasks : ∀ task, PcOk state task (state.pc task)
  bufs : ∀ index, BufOk state index

namespace Invariant

variable {state : Bcache Task}
variable {index : Fin NIOBUF} {task : Task}

variable (holds : Invariant state)
include holds

theorem refc_pos_of_lock (locked : (state.bufs index).lock = some task) :
    0 < (state.bufs index).refc := by
  rw [holds.references, locked]
  simp only [reduceCtorEq, if_false]
  omega

theorem refc_pos_of_reference (refers : (state.pc task).reference = some index) :
    0 < (state.bufs index).refc := by
  have positive : 0 < tally (fun task => (state.pc task).reference) index :=
    tally_pos refers
  rw [holds.references]
  omega

theorem valid_of_held (lock : (state.bufs index).lock = some task)
    (notFilling : (state.pc task).filling = none) : (state.bufs index).valid = true := by
  rcases (holds.bufs index).held task lock with valid | filling
  · exact valid
  · cases notFilling.symm.trans filling

end Invariant

/-! ## Steps of one task on one buffer -/

structure SameBuf (state next : Bcache Task) (index : Fin NIOBUF) : Prop where
  lock : (next.bufs index).lock = (state.bufs index).lock
  dev : (next.bufs index).dev = (state.bufs index).dev
  blockno : (next.bufs index).blockno = (state.bufs index).blockno
  valid : (next.bufs index).valid = (state.bufs index).valid
  data : (next.bufs index).data = (state.bufs index).data
  unwritten : next.unwritten index = state.unwritten index
  disk : state.Used index →
    next.disk (state.bufs index).dev (state.bufs index).blockno =
      state.disk (state.bufs index).dev (state.bufs index).blockno

variable {state next : Bcache Task}

omit [Fintype Task] in
theorem SameBuf.key {index : Fin NIOBUF} (same : SameBuf state next index) :
    next.key index = state.key index := by
  simp only [Bcache.key, same.dev, same.blockno]

namespace Invariant

variable {state next : Bcache Task}
variable {task : Task} {index : Fin NIOBUF} {dev blockno : UInt32}

section
variable (holds : Invariant state)
include holds

theorem pcOk_of_same
    (heldSame : ∀ index, (state.bufs index).lock = some task → SameBuf state next index)
    (referencedSame : ∀ index, (state.pc task).reference = some index →
      next.key index = state.key index ∧ ((state.bufs index).valid = true →
      (next.bufs index).valid = true)) : PcOk next task (state.pc task) := by
  have known := holds.tasks task
  cases pc : state.pc task with
  | idle => trivial
  | bget index dev blockno =>
    rw [pc] at known
    exact (referencedSame index (by simp [pc])).1.trans known
  | bread index dev blockno =>
    rw [pc] at known
    have same := heldSame index known.1
    exact ⟨same.lock.trans known.1, same.key.trans known.2.1, same.unwritten.trans known.2.2⟩
  | filled index dev blockno =>
    rw [pc] at known
    have same := heldSame index known.1
    have used : state.Used index := .inr (holds.refc_pos_of_lock known.1)
    have keyIs : (state.bufs index).dev = dev ∧ (state.bufs index).blockno = blockno := by
      simpa [Bcache.key] using known.2.1
    have onDisk := same.disk used
    rw [keyIs.1, keyIs.2] at onDisk
    exact ⟨same.lock.trans known.1, same.key.trans known.2.1, same.unwritten.trans known.2.2.1,
      same.data.trans (known.2.2.2.trans onDisk.symm)⟩
  | returned index dev blockno =>
    rw [pc] at known
    have same := heldSame index known.1
    exact ⟨same.lock.trans known.1, same.key.trans known.2.1,
      same.unwritten.trans known.2.2.1, same.valid.trans known.2.2.2⟩
  | bzero index =>
    rw [pc] at known
    have same := heldSame index known.1
    exact ⟨same.lock.trans known.1, same.valid.trans known.2⟩
  | brelse index =>
    rw [pc] at known
    exact (referencedSame index (by simp [pc])).2 known

theorem bufOk_of_same (same : SameBuf state next index)
    (fillingSame : ∀ task, (state.bufs index).lock = some task →
      (state.pc task).filling = some index → (next.pc task).filling = some index) :
    BufOk next index := by
  have known := holds.bufs index
  refine ⟨?_, ?_, ?_⟩
  · intro valid written
    rw [same.valid] at valid
    rw [same.unwritten] at written
    rw [same.data, same.dev, same.blockno, same.disk (.inl valid)]
    exact known.clean valid written
  · intro free
    rw [same.lock] at free
    rw [same.unwritten]
    exact known.unlocked free
  · intro task locked
    rw [same.lock] at locked
    rcases known.held task locked with valid | filling
    · exact .inl (same.valid.trans valid)
    · exact .inr (fillingSame task locked filling)

theorem keys_of_same (head : next.head = state.head)
    (key : ∀ index, next.key index = state.key index)
    (use : ∀ index, next.Used index ↔ state.Used index) :
    KeyedCache next.head next.key next.Used (0, 0) := by
  rw [head]
  exact holds.keys.congr key use

end

variable [DecidableEq Task]

/-- What has to be checked of a step that moves one task and changes at most
one buffer. -/
structure LocalStep (state next : Bcache Task) (task : Task) (index : Fin NIOBUF)
    (pc : BioPc) : Prop where
  pcs : next.pc = update state.pc task pc
  keys : KeyedCache next.head next.key next.Used (0, 0)
  others : ∀ other, other ≠ index → SameBuf state next other
  refcs : ∀ other, other ≠ index → (next.bufs other).refc = (state.bufs other).refc
  locked : ∀ holder, holder ≠ task → (state.bufs index).lock = some holder →
    SameBuf state next index
  referenced : ∀ holder, holder ≠ task → (state.pc holder).reference = some index →
    next.key index = state.key index ∧
      ((state.bufs index).valid = true → (next.bufs index).valid = true)
  oldReference : ∀ other, other ≠ index → (state.pc task).reference ≠ some other
  newReference : ∀ other, other ≠ index → pc.reference ≠ some other
  oldFilling : ∀ other, other ≠ index → (state.pc task).filling ≠ some other
  count : (next.bufs index).refc +
      (if (state.bufs index).lock = none then 0 else 1) +
      (if (state.pc task).reference = some index then 1 else 0) =
    (state.bufs index).refc + (if (next.bufs index).lock = none then 0 else 1) +
      (if pc.reference = some index then 1 else 0)
  own : PcOk next task pc
  buffer : BufOk next index

theorem localStep (holds : Invariant state) (task : Task) (index : Fin NIOBUF)
    (pc : BioPc) (change : LocalStep state next task index pc) : Invariant next := by
  have references : (fun owner => (next.pc owner).reference) =
      update (fun owner => (state.pc owner).reference) task pc.reference := by
    funext owner
    rw [change.pcs]
    by_cases same : owner = task
    · subst same
      simp
    · simp [same]
  refine ⟨change.keys, ?_, ?_, ?_⟩
  · intro other
    have before := holds.references other
    have moved := tally_update (fun owner => (state.pc owner).reference) task
      pc.reference other
    rw [references]
    by_cases same : other = index
    · subst same
      have count := change.count
      omega
    · rw [if_neg (change.oldReference other same), if_neg (change.newReference other same)] at moved
      rw [change.refcs other same, (change.others other same).lock]
      omega
  · intro owner
    by_cases same : owner = task
    · subst same
      rw [change.pcs, update_self]
      exact change.own
    · rw [change.pcs, update_of_ne same]
      apply holds.pcOk_of_same
      · intro other locked
        by_cases sameIndex : other = index
        · subst sameIndex
          exact change.locked owner same locked
        · exact change.others other sameIndex
      · intro other refers
        by_cases sameIndex : other = index
        · subst sameIndex
          exact change.referenced owner same refers
        · have untouched := change.others other sameIndex
          exact ⟨untouched.key, fun valid => untouched.valid.trans valid⟩
  · intro other
    by_cases sameIndex : other = index
    · subst sameIndex
      exact change.buffer
    · apply holds.bufOk_of_same (change.others other sameIndex)
      intro owner _ filling
      have different : owner ≠ task := by
        rintro rfl
        exact change.oldFilling other sameIndex filling
      rw [change.pcs, update_of_ne different]
      exact filling

/-- A step of the task that holds the buffer's sleep lock and leaves `buf` there.
Its reference is the lock itself until `brelse` turns it into one of the task. -/
structure HolderStep (state next : Bcache Task) (task : Task) (index : Fin NIOBUF)
    (pc : BioPc) (buf : Buf Task) : Prop where
  pcs : next.pc = update state.pc task pc
  head : next.head = state.head
  bufs : next.bufs = (state.setBuf index buf).bufs
  unwritten : ∀ other, other ≠ index → next.unwritten other = state.unwritten other
  disk : ∀ other, other ≠ index → state.Used other →
    next.disk (state.bufs other).dev (state.bufs other).blockno =
      state.disk (state.bufs other).dev (state.bufs other).blockno
  lock : (state.bufs index).lock = some task
  same : buf.refc = (state.bufs index).refc ∧ buf.dev = (state.bufs index).dev ∧
    buf.blockno = (state.bufs index).blockno
  valid : (state.bufs index).valid = true → buf.valid = true
  oldReference : (state.pc task).reference = none
  newReference : pc.reference = if buf.lock = none then some index else none
  oldFilling : ∀ other, other ≠ index → (state.pc task).filling ≠ some other
  own : PcOk next task pc
  buffer : BufOk next index

section
variable (holds : Invariant state)
include holds

theorem holderStep (task : Task) (index : Fin NIOBUF) (pc : BioPc) (buf : Buf Task)
    (change : HolderStep state next task index pc buf) :
    Invariant next := by
  have positive := holds.refc_pos_of_lock change.lock
  have bufIs : next.bufs index = buf := by
    rw [change.bufs, setBuf_same]
  have bufsAre : ∀ other, other ≠ index → next.bufs other = state.bufs other := by
    intro other different
    rw [change.bufs, setBuf_other _ _ different]
  have keyIs : next.key index = state.key index := by
    simp only [Bcache.key, bufIs, change.same]
  refine holds.localStep task index pc
    { pcs := change.pcs, keys := ?_, others := ?_, refcs := ?_, locked := ?_,
      referenced := fun _ _ _ => ⟨keyIs, by rw [bufIs]; exact change.valid⟩,
      oldReference := ?_, newReference := ?_, oldFilling := change.oldFilling,
      count := ?_, own := change.own, buffer := change.buffer }
  · refine holds.keys_of_same change.head ?_ ?_
    · intro other
      by_cases same : other = index
      · exact same ▸ keyIs
      · simp only [Bcache.key, bufsAre other same]
    · intro other
      by_cases same : other = index
      · subst same
        exact ⟨fun _ => .inr positive, fun _ => .inr (by rwa [bufIs, change.same.1])⟩
      · simp only [Used, bufsAre other same]
  · intro other different
    have same := bufsAre other different
    exact ⟨by rw [same], by rw [same], by rw [same], by rw [same], by rw [same],
      change.unwritten other different, change.disk other different⟩
  · intro other different
    rw [bufsAre other different]
  · intro holder different locked
    rw [change.lock] at locked
    exact absurd (Option.some.inj locked).symm different
  · intro other _
    rw [change.oldReference]
    rintro ⟨⟩
  · intro other different
    rw [change.newReference]
    split
    · simpa using Ne.symm different
    · simp
  · rw [bufIs, change.same.1, change.lock, change.oldReference, change.newReference]
    by_cases free : buf.lock = none <;> simp [free]

theorem sleepGet (pc : state.pc task = .bget index dev blockno)
    (free : (state.bufs index).lock = none) :
    Invariant ((state.setBuf index { state.bufs index with lock := some task }).setPc task
        (.bread index dev blockno)) := by
  have known := holds.tasks task
  rw [pc] at known
  have buffer := holds.bufs index
  refine holds.localStep task index (.bread index dev blockno)
    { pcs := rfl, keys := ?_, others := ?_, refcs := ?_, locked := ?_, referenced := ?_,
      oldReference := ?_, newReference := ?_, oldFilling := ?_, count := ?_, own := ?_,
      buffer := ?_ }
  · refine holds.keys_of_same ?_ ?_ ?_
    · rfl
    all_goals
      intro other
      by_cases same : other = index
      · subst same
        simp [Bcache.key, Used]
      · simp [Bcache.key, Used, same]
  · intro other different
    constructor <;> simp [different]
  · intro other different
    simp [different]
  · intro holder _ locked
    simp [free] at locked
  · intro holder _ _
    simp [Bcache.key]
  · simp [pc, eq_comm]
  · simp
  · simp [pc]
  · simp [pc, free]
  · exact ⟨by simp, by simpa [PcOk, Bcache.key] using known, buffer.unlocked free⟩
  · refine ⟨by simpa using buffer.clean, by simp, ?_⟩
    intro holder locked
    simp only [setPc_rest, setBuf_same, Option.some.injEq] at locked
    subst locked
    simp

section
variable (pc : state.pc task = .bread index dev blockno)
include pc

theorem breadValid (valid : (state.bufs index).valid = true) :
    Invariant (state.setPc task (.returned index dev blockno)) := by
  obtain ⟨lock, key, written⟩ : (state.bufs index).lock = some task ∧
      state.key index = (dev, blockno) ∧ state.unwritten index = false := by
    simpa [pc, PcOk] using holds.tasks task
  have buffer := holds.bufs index
  refine holds.holderStep task index (.returned index dev blockno) (state.bufs index)
    { pcs := rfl, head := rfl, bufs := ?_, unwritten := fun _ _ => rfl,
      disk := fun _ _ _ => rfl, lock := lock, same := ⟨rfl, rfl, rfl⟩, valid := id,
      oldReference := ?_, newReference := ?_, oldFilling := ?_,
      own := ⟨lock, key, written, valid⟩, buffer := ?_ }
  · simp [setBuf]
  · simp [pc]
  · simp [lock]
  · simp [pc, eq_comm]
  · exact ⟨buffer.clean, buffer.unlocked, fun _ _ => .inl valid⟩

theorem breadFill : Invariant ((state.setBuf index { state.bufs index with
      data := state.disk (state.bufs index).dev (state.bufs index).blockno }).setPc task
        (.filled index dev blockno)) := by
  obtain ⟨lock, key, written⟩ : (state.bufs index).lock = some task ∧
      state.key index = (dev, blockno) ∧ state.unwritten index = false := by
    simpa [pc, PcOk] using holds.tasks task
  have keyIs : (state.bufs index).dev = dev ∧ (state.bufs index).blockno = blockno := by
    simpa [Bcache.key] using key
  refine holds.holderStep task index (.filled index dev blockno) _
    { pcs := rfl, head := rfl, bufs := rfl, unwritten := fun _ _ => rfl,
      disk := fun _ _ _ => rfl, lock := lock, same := ⟨rfl, rfl, rfl⟩, valid := id,
      oldReference := ?_, newReference := ?_, oldFilling := ?_, own := ?_, buffer := ?_ }
  · simp [pc]
  · simp [lock]
  · simp [pc, eq_comm]
  · simp [PcOk, Bcache.key, lock, keyIs, written]
  · refine ⟨by simp, by simp [lock], ?_⟩
    intro holder locked
    simp only [setPc_rest, setBuf_same, lock, Option.some.injEq] at locked
    subst locked
    simp

end

theorem setValid (pc : state.pc task = .filled index dev blockno) :
    Invariant ((state.setBuf index { state.bufs index with valid := true }).setPc task
      (.returned index dev blockno)) := by
  obtain ⟨lock, key, written, data⟩ : (state.bufs index).lock = some task ∧
      state.key index = (dev, blockno) ∧ state.unwritten index = false ∧
      (state.bufs index).data = state.disk dev blockno := by
    simpa [pc, PcOk] using holds.tasks task
  have keyIs : (state.bufs index).dev = dev ∧ (state.bufs index).blockno = blockno := by
    simpa [Bcache.key] using key
  refine holds.holderStep task index (.returned index dev blockno) _
    { pcs := rfl, head := rfl, bufs := rfl, unwritten := fun _ _ => rfl,
      disk := fun _ _ _ => rfl, lock := lock, same := ⟨rfl, rfl, rfl⟩, valid := fun _ => rfl,
      oldReference := ?_, newReference := ?_, oldFilling := ?_, own := ?_, buffer := ?_ }
  · simp [pc]
  · simp [lock]
  · simp [pc, eq_comm]
  · simp [PcOk, Bcache.key, lock, keyIs, written]
  · exact ⟨by simp [data, keyIs], by simp [lock], by simp⟩

theorem resume (pc : state.pc task = .returned index dev blockno) :
    Invariant (state.setPc task .idle) := by
  obtain ⟨lock, -, -, valid⟩ : (state.bufs index).lock = some task ∧
      state.key index = (dev, blockno) ∧ state.unwritten index = false ∧
      (state.bufs index).valid = true := by
    simpa [pc, PcOk] using holds.tasks task
  have buffer := holds.bufs index
  refine holds.holderStep task index .idle (state.bufs index)
    { pcs := rfl, head := rfl, bufs := ?_, unwritten := fun _ _ => rfl,
      disk := fun _ _ _ => rfl, lock := lock, same := ⟨rfl, rfl, rfl⟩, valid := id,
      oldReference := ?_, newReference := ?_, oldFilling := ?_, own := trivial,
      buffer := ⟨buffer.clean, buffer.unlocked, fun _ _ => .inl valid⟩ }
  · simp [setBuf]
  · simp [pc]
  · simp [lock]
  · simp [pc]

theorem diskWrite (lock : (state.bufs index).lock = some task)
    (notFilling : (state.pc task).filling = none) (noReference : (state.pc task).reference = none) :
    Invariant ((state.diskWrite index).setPc task .idle) := by
  have valid := holds.valid_of_held lock notFilling
  refine holds.holderStep task index .idle (state.bufs index)
    { pcs := rfl, head := rfl, bufs := ?_, unwritten := ?_, disk := ?_, lock := lock,
      same := ⟨rfl, rfl, rfl⟩, valid := id, oldReference := noReference,
      newReference := ?_, oldFilling := ?_, own := trivial, buffer := ?_ }
  · simp [setBuf, Bcache.diskWrite]
  · intro other different
    simp [Bcache.diskWrite, different]
  · intro other different used
    -- Another block: no second used buffer carries this key.
    have keys : state.key other ≠ state.key index := fun same =>
      different (holds.keys.unique other index used (.inl valid) same)
    simp only [Bcache.diskWrite, setPc_rest]
    by_cases sameDev : (state.bufs other).dev = (state.bufs index).dev
    · have differentBlock : (state.bufs other).blockno ≠ (state.bufs index).blockno :=
        fun sameBlock => keys (by simp only [Bcache.key, sameDev, sameBlock])
      simp [sameDev, differentBlock]
    · simp [sameDev]
  · simp [lock]
  · exact fun other _ fills => by cases notFilling.symm.trans fills
  · refine ⟨?_, ?_, ?_⟩ <;> simp [Bcache.diskWrite, valid]

theorem brelseDrop (pc : state.pc task = .brelse index) :
    Invariant ((state.brelseDrop index).setPc task .idle) := by
  have valid : (state.bufs index).valid = true := by
    simpa [pc, PcOk] using holds.tasks task
  have reference : (state.pc task).reference = some index := by
    simp [pc]
  have positive := holds.refc_pos_of_reference reference
  have sameKeys : KeyedCache state.head (state.brelseDrop index).key
      (state.brelseDrop index).Used (0, 0) := by
    apply holds.keys.congr
    all_goals
      intro other
      by_cases same : other = index
      · subst same
        simp [Bcache.key, Used, valid]
      · simp [Bcache.key, Used, same]
  have buffer := holds.bufs index
  refine holds.localStep task index .idle
    { pcs := ?_, keys := ?_, others := ?_, refcs := ?_, locked := ?_, referenced := ?_,
      oldReference := ?_, newReference := ?_, oldFilling := ?_, count := ?_,
      own := trivial, buffer := ?_ }
  · simp
  · change KeyedCache (state.brelseDrop index).head (state.brelseDrop index).key
      (state.brelseDrop index).Used (0, 0)
    rw [brelseDrop_head]
    split
    · exact sameKeys.moveFront (.inl (by simp [valid]))
    · exact sameKeys
  · intro other different
    constructor <;> simp [different]
  · intro other different
    simp [different]
  · intro holder _ _
    constructor <;> simp
  · intro holder _ _
    simp [Bcache.key]
  · rw [reference]
    simp [eq_comm]
  · simp
  · simp [pc]
  · have dropped : BioPc.idle.reference ≠ some index := by
      simp
    rw [if_pos reference, if_neg dropped]
    simp only [setPc_rest, brelseDrop_bufs, setBuf_same]
    omega
  · refine ⟨?_, ?_, ?_⟩
    · simpa using buffer.clean
    · simpa using buffer.unlocked
    · simp [valid]

section
variable (pc : state.pc task = .idle)
include pc

theorem changeData (lock : (state.bufs index).lock = some task)
    (data : Block) {newPc : BioPc} (newPcIs : newPc = .idle ∨ newPc = .bzero index) :
    Invariant { (state.setBuf index { state.bufs index with data := data }).setPc task newPc
      with unwritten := update state.unwritten index true } := by
  have valid := holds.valid_of_held lock (by simp [pc])
  refine holds.holderStep task index newPc _
    { pcs := rfl, head := rfl, bufs := rfl, unwritten := ?_, disk := fun _ _ _ => rfl,
      lock := lock, same := ⟨rfl, rfl, rfl⟩, valid := id, oldReference := ?_,
      newReference := ?_, oldFilling := ?_, own := ?_, buffer := ?_ }
  · intro other different
    simp [different]
  · simp [pc]
  · rcases newPcIs with rfl | rfl <;> simp [lock]
  · simp [pc]
  · rcases newPcIs with rfl | rfl <;> simp [PcOk, lock, valid]
  · exact ⟨by simp, by simp [lock], by simp [valid]⟩

theorem brelse (lock : (state.bufs index).lock = some task)
    (written : state.unwritten index = false) :
    Invariant ((state.setBuf index { state.bufs index with lock := none }).setPc task
      (.brelse index)) := by
  have valid := holds.valid_of_held lock (by simp [pc])
  have buffer := holds.bufs index
  refine holds.holderStep task index (.brelse index) _
    { pcs := rfl, head := rfl, bufs := rfl, unwritten := fun _ _ => rfl,
      disk := fun _ _ _ => rfl, lock := lock, same := ⟨rfl, rfl, rfl⟩, valid := id,
      oldReference := ?_, newReference := ?_, oldFilling := ?_, own := ?_, buffer := ?_ }
  · simp [pc]
  · simp
  · simp [pc]
  · simp [PcOk, valid]
  · exact ⟨by simpa using buffer.clean, by simp [written], by simp⟩

theorem bgetHit (found : state.hit dev blockno = some index) : Invariant ((state.setBuf index
      { state.bufs index with refc := (state.bufs index).refc + 1 }).setPc task
        (.bget index dev blockno)) := by
  have foundKey : state.head.find? (fun other => decide (state.key other = (dev, blockno))) =
      some index := by
    simpa [hit, Bcache.key] using found
  have keyIs : state.key index = (dev, blockno) := by
    simpa using List.find?_some foundKey
  have buffer := holds.bufs index
  refine holds.localStep task index (.bget index dev blockno)
    { pcs := rfl, keys := ?_, others := ?_, refcs := ?_, locked := ?_, referenced := ?_,
      oldReference := ?_, newReference := ?_, oldFilling := ?_, count := ?_, own := ?_,
      buffer := ?_ }
  · apply (holds.keys.hit foundKey).congr
    all_goals
      intro other
      by_cases same : other = index
      · subst same
        simp [Bcache.key, Used]
      · simp [Bcache.key, Used, same]
  · intro other different
    constructor <;> simp [different]
  · intro other different
    simp [different]
  · intro holder _ _
    constructor <;> simp
  · intro holder _ _
    simp [Bcache.key]
  · simp [pc]
  · simp [eq_comm]
  · simp [pc]
  · simp only [setPc_rest, setBuf_same, pc, BioPc.reference, reduceCtorEq, if_true, if_false]
    omega
  · simpa [PcOk, Bcache.key] using keyIs
  · refine ⟨by simpa using buffer.clean, by simpa using buffer.unlocked, ?_⟩
    intro holder locked
    simp only [setPc_rest, setBuf_same] at locked
    have different : (state.bufs index).valid = true ∨ holder ≠ task := by
      by_cases same : holder = task
      · exact .inl (holds.valid_of_held (same ▸ locked) (by simp [pc]))
      · exact .inr same
    rcases different with valid | different
    · exact .inl (by simpa using valid)
    · simpa [different] using buffer.held holder locked

theorem bgetMiss (absent : state.hit dev blockno = none) (unused : state.victim = some index) :
    Invariant ((state.setBuf index { state.bufs index with
      refc := 1, dev := dev, blockno := blockno, valid := false }).setPc task
        (.bget index dev blockno)) := by
  have absentKey : state.head.find? (fun other => decide (state.key other = (dev, blockno))) =
      none := by
    simpa [hit, Bcache.key] using absent
  have refc : (state.bufs index).refc = 0 := by
    simpa using List.find?_some unused
  have free : (state.bufs index).lock = none := by
    by_contra locked
    obtain ⟨holder, lock⟩ := Option.ne_none_iff_exists'.mp locked
    have := holds.refc_pos_of_lock lock
    omega
  have unreferenced : ∀ holder, (state.pc holder).reference ≠ some index := by
    intro holder reference
    have := holds.refc_pos_of_reference reference
    omega
  have written := (holds.bufs index).unlocked free
  refine holds.localStep task index (.bget index dev blockno)
    { pcs := rfl, keys := ?_, others := ?_, refcs := ?_, locked := ?_, referenced := ?_,
      oldReference := ?_, newReference := ?_, oldFilling := ?_, count := ?_, own := ?_,
      buffer := ?_ }
  · apply (holds.keys.miss index absentKey).congr
    all_goals
      intro other
      by_cases same : other = index
      · subst same
        simp [Bcache.key, Used]
      · simp [Bcache.key, Used, same]
  · intro other different
    constructor <;> simp [different]
  · intro other different
    simp [different]
  · intro holder _ locked
    simp [free] at locked
  · exact fun holder _ reference => absurd reference (unreferenced holder)
  · simp [pc]
  · simp [eq_comm]
  · simp [pc]
  · simp [pc, refc, free]
  · simp [PcOk, Bcache.key]
  · exact ⟨by simp, by simp [written], by simp [free]⟩

end

end

/-! ## Whole runs -/

theorem initial {start : Bcache Task} (isInitial : (machine Task).Initial start) :
    Invariant start := by
  obtain ⟨bufs, head, pcs, unwritten⟩ := isInitial
  have unused : ∀ index, ¬ start.Used index := by
    intro index
    simp [Used, bufs index]
  refine ⟨⟨?_, ?_, ?_, ?_, ?_⟩, ?_, ?_, ?_⟩
  · rw [head]
    exact List.nodup_finRange NIOBUF
  · intro index
    rw [head]
    exact List.mem_finRange index
  · intro index _
    simp [Bcache.key, bufs index]
  · exact fun left _ used => absurd used (unused left)
  · exact fun used _ isUsed => absurd isUsed (unused used)
  · intro index
    simp [bufs index, pcs, tally_none]
  · intro task
    simp [pcs, PcOk]
  · intro index
    exact ⟨by simp [bufs index], by simp [unwritten], by simp [bufs index]⟩

theorem step (holds : Invariant state) {label : Label Task}
    (allowed : WritesBack state label) (taken : Transition state label next) :
    Invariant next := by
  cases taken with
  | bgetHit pc found => exact holds.bgetHit pc found
  | bgetMiss pc absent unused => exact holds.bgetMiss pc absent unused
  | sleepGet pc free => exact holds.sleepGet pc free
  | breadValid pc valid => exact holds.breadValid pc valid
  | breadFill pc => exact holds.breadFill pc
  | setValid pc => exact holds.setValid pc
  | resume pc => exact holds.resume pc
  | modify pc lock => exact holds.changeData pc lock _ (.inl rfl)
  | bwrite pc lock =>
    exact holds.diskWrite lock (by simp [pc]) (by simp [pc])
  | bzero pc lock => exact holds.changeData pc lock _ (.inr rfl)
  | bzeroWrite pc lock =>
    exact holds.diskWrite lock (by simp [pc]) (by simp [pc])
  | brelse pc lock => exact holds.brelse pc lock allowed
  | brelseDrop pc => exact holds.brelseDrop pc

theorem reaches (reached : (machine Task).Reaches WritesBack state) : Invariant state :=
  reached.invariant Invariant (fun _ => initial)
    fun _ _ _ holds allowed taken => holds.step allowed (transition_of_step taken)

end Invariant

omit [Fintype Task] in
theorem stable_setBuf {changed : Fin NIOBUF} {buf : Buf Task} (index : Fin NIOBUF)
    (bufs : next.bufs = (state.setBuf changed buf).bufs)
    (kept : index = changed → buf.dev = (state.bufs index).dev ∧
      buf.blockno = (state.bufs index).blockno ∧ ((state.bufs index).valid = true →
      buf.valid = true)) :
    next.key index = state.key index ∧
      ((state.bufs index).valid = true → (next.bufs index).valid = true) := by
  by_cases same : index = changed
  · have keeps := kept same
    subst same
    simpa [Bcache.key, bufs, keeps] using keeps.2.2
  · simp [Bcache.key, bufs, same]

omit [Fintype Task] in
theorem Transition.stable [DecidableEq Task] {label : Label Task}
    (taken : Transition state label next) {index : Fin NIOBUF}
    (referenced : 0 < (state.bufs index).refc) :
    next.key index = state.key index ∧
      ((state.bufs index).valid = true → (next.bufs index).valid = true) := by
  cases taken with
  | bgetMiss pc absent unused =>
    have refc := List.find?_some unused
    refine stable_setBuf index rfl ?_
    rintro rfl
    simp only [decide_eq_true_eq] at refc
    omega
  | breadValid | resume | bwrite | bzeroWrite => exact ⟨rfl, id⟩
  | brelseDrop pc =>
    refine stable_setBuf index (brelseDrop_bufs _ _) ?_
    rintro rfl
    exact ⟨rfl, rfl, id⟩
  | bgetHit | sleepGet | breadFill | setValid | modify | bzero | brelse =>
    refine stable_setBuf index rfl ?_
    rintro rfl
    simp

/-- The buffers are transparent for every interleaving of any number of tasks
that write back what they change: keys in use are unique, a referenced buffer
keeps its key and stays valid, and `bread` returns the contents of the disk. -/
theorem bcache_transparent [DecidableEq Task] {state : Bcache Task}
    (reached : (machine Task).Reaches WritesBack state) :
    (∀ left right, state.Used left → state.Used right →
      state.key left = state.key right → left = right) ∧
    (∀ label next, (machine Task).step state label = some next →
      ∀ index, 0 < (state.bufs index).refc → next.key index = state.key index ∧
        ((state.bufs index).valid = true → (next.bufs index).valid = true)) ∧
    (∀ task index dev blockno, state.pc task = .returned index dev blockno →
      state.key index = (dev, blockno) ∧
        (state.bufs index).data = state.disk dev blockno) := by
  have holds := Invariant.reaches reached
  refine ⟨holds.keys.unique, ?_, ?_⟩
  · intro label next taken index referenced
    exact (transition_of_step taken).stable referenced
  · intro task index dev blockno pc
    obtain ⟨-, key, written, valid⟩ : (state.bufs index).lock = some task ∧
        state.key index = (dev, blockno) ∧ state.unwritten index = false ∧
        (state.bufs index).valid = true := by
      simpa [pc, PcOk] using holds.tasks task
    refine ⟨key, ?_⟩
    have keyIs : (state.bufs index).dev = dev ∧ (state.bufs index).blockno = blockno := by
      simpa [Bcache.key] using key
    simpa [keyIs] using (holds.bufs index).clean valid written

def exampleStart : Bcache (Fin 2) where
  bufs := fun _ => ⟨0, 0, 0, false, none, 0⟩
  head := List.finRange NIOBUF
  disk := fun _ blockno => BitVec.ofNat 8192 blockno.toNat
  pc := fun _ => .idle
  unwritten := fun _ => false

def exampleRun : List (Label (Fin 2)) :=
  [.bget 0 1 7, .sleepGet 0, .bread 0, .bget 1 1 7, .setValid 0, .resume 0,
    .brelse 0 15, .sleepGet 1, .bread 1, .brelseDrop 0]

theorem bcache_transparent_exampleRun :
    ∃ state, (machine (Fin 2)).run exampleStart exampleRun = some state ∧
      state.pc 1 = .returned 15 1 7 ∧
      (state.bufs 15).data = state.disk 1 7 := by
  have started : (machine (Fin 2)).Reaches WritesBack exampleStart :=
    .initial ⟨fun _ => ⟨rfl, rfl, rfl, rfl, rfl⟩, rfl, rfl, rfl⟩
  have allowed : (machine (Fin 2)).Allows WritesBack exampleStart exampleRun := by
    decide
  obtain ⟨state, ran, returned⟩ : ∃ state,
      (machine (Fin 2)).run exampleStart exampleRun = some state ∧
        state.pc 1 = .returned 15 1 7 := ⟨_, rfl, rfl⟩
  have transparent := bcache_transparent (started.run allowed ran)
  exact ⟨state, ran, returned, (transparent.2.2 1 15 1 7 returned).2⟩

end Bcache
end Tnix.Fs
