import Tnix.Foundation.Ring

/-! # Pipes

`struct pipe` and the copying parts of `piperead` and `pipewrite`. The counters
are 32-bit and wrap; `buf` is read and written only below `PIPE_SIZE`. -/

namespace Tnix.Fs

def PIPE_SIZE : UInt32 := 64

structure Pipe where
  nread : UInt32
  nwrite : UInt32
  buf : Nat → UInt8

namespace Pipe

def pipeIsempty (pipe : Pipe) : Bool := pipe.nread == pipe.nwrite

def pipeReadableSize (pipe : Pipe) : UInt32 := pipe.nwrite - pipe.nread

def pipeWritableSize (pipe : Pipe) : UInt32 :=
  PIPE_SIZE - (pipe.nwrite - pipe.nread)

/-- The copy loop of `piperead`. Returns the bytes copied out and the read
counter. Every turn copies at least one byte, so `fuel = bytes` is enough. -/
def pipereadLoop (buf : Nat → UInt8) :
    (fuel : Nat) → (start bytes nread : UInt32) → List UInt8 × UInt32
  | 0, _, _, nread => ([], nread)
  | fuel + 1, start, bytes, nread =>
    if bytes > 0 then
      let count := if bytes < PIPE_SIZE - start then bytes else PIPE_SIZE - start
      let rest := pipereadLoop buf fuel ((start + count) % PIPE_SIZE)
        (bytes - count) (nread + count)
      (Ring.slice buf start.toNat count.toNat ++ rest.1, rest.2)
    else ([], nread)

/-- `piperead` after its emptiness wait: the return value, the bytes copied to
the user and the pipe. An empty pipe keeps the reader waiting. -/
def piperead (pipe : Pipe) (len : UInt32) : Option (UInt32 × List UInt8 × Pipe) :=
  if pipe.pipeIsempty then none
  else
    let bytes := if len < pipe.pipeReadableSize then len else pipe.pipeReadableSize
    let start := pipe.nread % PIPE_SIZE
    let copied := pipereadLoop pipe.buf bytes.toNat start bytes pipe.nread
    some (bytes, copied.1, { pipe with nread := copied.2 })

/-- One turn of the loop of `pipewrite` that finds room: the chunk copied from
`usrc + totalWritten` and the pipe. A full pipe keeps the writer waiting. -/
def pipewriteChunk (pipe : Pipe) (usrc : Nat → UInt8) (len totalWritten : UInt32) :
    Option (UInt32 × Pipe) :=
  let writable := pipe.pipeWritableSize
  if writable = 0 then none
  else
    let start := pipe.nwrite % PIPE_SIZE
    let pending := len - totalWritten
    let room := if pending < writable then pending else writable
    let count := if room < PIPE_SIZE - start then room else PIPE_SIZE - start
    some (count, { pipe with
        nwrite := pipe.nwrite + count
        buf := Ring.store pipe.buf start.toNat count.toNat
          fun index => usrc (totalWritten.toNat + index) })

/-! ## The bytes in the ring -/

def available (pipe : Pipe) : Nat := pipe.pipeReadableSize.toNat

def stored (pipe : Pipe) : List UInt8 :=
  Ring.window 64 pipe.buf pipe.nread.toNat pipe.available

def Bounded (pipe : Pipe) : Prop := pipe.available ≤ 64

@[simp] theorem toNat_PIPE_SIZE : PIPE_SIZE.toNat = 64 := rfl

variable (pipe : Pipe)

@[simp] theorem length_stored : pipe.stored.length = pipe.available := by
  simp [stored]

theorem available_eq :
    pipe.available = (2 ^ 32 - pipe.nread.toNat + pipe.nwrite.toNat) % 2 ^ 32 := by
  simp [available, pipeReadableSize, UInt32.toNat_sub]

theorem pipeIsempty_iff : pipe.pipeIsempty = true ↔ pipe.available = 0 := by
  have readBound := pipe.nread.toNat_lt
  have writeBound := pipe.nwrite.toNat_lt
  rw [available_eq]
  simp only [pipeIsempty, beq_iff_eq, ← UInt32.toNat_inj]
  omega

theorem nwrite_mod : pipe.nwrite.toNat % 64 = (pipe.nread.toNat + pipe.available) % 64 := by
  have readBound := pipe.nread.toNat_lt
  have writeBound := pipe.nwrite.toNat_lt
  rw [available_eq]
  omega

theorem toNat_pipeWritableSize {pipe : Pipe} (bounded : pipe.Bounded) :
    pipe.pipeWritableSize.toNat = 64 - pipe.available := by
  have bound : pipe.pipeReadableSize.toNat ≤ 64 := bounded
  have small : pipe.nwrite - pipe.nread ≤ PIPE_SIZE := by
    rw [UInt32.le_iff_toNat_le]
    exact bound
  rw [pipeWritableSize, UInt32.toNat_sub_of_le _ _ small]
  rfl

/-! ## Reading -/

theorem toNat_ite_lt (left right : UInt32) :
    (if left < right then left else right).toNat = min left.toNat right.toNat := by
  by_cases less : left < right
  · rw [if_pos less]
    have := UInt32.lt_iff_toNat_lt.mp less
    omega
  · rw [if_neg less]
    have : ¬ left.toNat < right.toNat := fun small =>
      less (UInt32.lt_iff_toNat_lt.mpr small)
    omega

theorem pipereadLoop_eq (buf : Nat → UInt8) (fuel : Nat) :
    ∀ (start bytes nread : UInt32), start.toNat < 64 → bytes.toNat ≤ fuel →
      pipereadLoop buf fuel start bytes nread =
        (Ring.window 64 buf start.toNat bytes.toNat, nread + bytes) := by
  induction fuel with
  | zero =>
    intro start bytes nread _ enough
    have none : bytes = 0 := by
      rw [← UInt32.toNat_inj]
      simpa using enough
    subst none
    simp [pipereadLoop]
  | succ fuel induction =>
    intro start bytes nread inRing enough
    rw [pipereadLoop]
    by_cases some : bytes > 0
    · rw [if_pos some]
      have positive : 0 < bytes.toNat := by
        simpa using UInt32.lt_iff_toNat_lt.mp some
      have startLe : start ≤ PIPE_SIZE := by
        rw [UInt32.le_iff_toNat_le, toNat_PIPE_SIZE]
        omega
      have roomSize : (PIPE_SIZE - start).toNat = 64 - start.toNat :=
        UInt32.toNat_sub_of_le _ _ startLe
      let count := if bytes < PIPE_SIZE - start then bytes else PIPE_SIZE - start
      have countSize : count.toNat = min bytes.toNat (64 - start.toNat) := by
        rw [← roomSize]
        exact toNat_ite_lt _ _
      have countLe : count ≤ bytes := by
        rw [UInt32.le_iff_toNat_le]
        omega
      have restSize : (bytes - count).toNat = bytes.toNat - count.toNat :=
        UInt32.toNat_sub_of_le _ _ countLe
      have nextStart : ((start + count) % PIPE_SIZE).toNat =
          (start.toNat + count.toNat) % 64 := by
        rw [UInt32.toNat_mod, UInt32.toNat_add, toNat_PIPE_SIZE]
        omega
      have later := induction ((start + count) % PIPE_SIZE) (bytes - count)
        (nread + count) (by omega) (by omega)
      have split : bytes.toNat = count.toNat + (bytes.toNat - count.toNat) := by
        omega
      have first : Ring.slice buf start.toNat count.toNat =
          Ring.window 64 buf start.toNat count.toNat := by
        have inside : start.toNat % 64 + count.toNat ≤ 64 := by omega
        rw [Ring.window_eq_slice buf inside, Nat.mod_eq_of_lt inRing]
      have second : Ring.window 64 buf ((start.toNat + count.toNat) % 64)
            (bytes.toNat - count.toNat) =
          Ring.window 64 buf (start.toNat + count.toNat)
            (bytes.toNat - count.toNat) :=
        Ring.window_congr_start buf _ (Nat.mod_mod _ _)
      change (Ring.slice buf start.toNat count.toNat ++
          (pipereadLoop buf fuel ((start + count) % PIPE_SIZE) (bytes - count)
            (nread + count)).1,
        (pipereadLoop buf fuel ((start + count) % PIPE_SIZE) (bytes - count)
            (nread + count)).2) = _
      rw [later, first, restSize, nextStart, second, ← Ring.window_add, ← split]
      have counter : nread + count + (bytes - count) = nread + bytes := by
        rw [UInt32.add_assoc, UInt32.add_comm count, UInt32.sub_add_cancel]
      rw [counter]
    · rw [if_neg some]
      have none : bytes = 0 := by
        rw [← UInt32.toNat_inj]
        have : ¬ 0 < bytes.toNat := fun positive =>
          some (UInt32.lt_iff_toNat_lt.mpr (by simpa using positive))
        simpa using this
      subst none
      simp

theorem piperead_spec {pipe next : Pipe} {len count : UInt32} {bytes : List UInt8}
    (readOk : pipe.piperead len = some (count, bytes, next)) :
    count.toNat = min len.toNat pipe.available ∧
      bytes.length = min len.toNat pipe.available ∧
      bytes ++ next.stored = pipe.stored ∧
      next.available = pipe.available - count.toNat ∧
      next.nwrite = pipe.nwrite := by
  rw [piperead] at readOk
  split at readOk
  · cases readOk
  · obtain ⟨wanted, wantedIs⟩ : ∃ wanted, wanted =
        if len < pipe.pipeReadableSize then len else pipe.pipeReadableSize := ⟨_, rfl⟩
    have wantedSize : wanted.toNat = min len.toNat pipe.available := by
      rw [wantedIs]
      exact toNat_ite_lt _ _
    have inRing : (pipe.nread % PIPE_SIZE).toNat < 64 := by
      rw [UInt32.toNat_mod, toNat_PIPE_SIZE]
      omega
    have copied := pipereadLoop_eq pipe.buf wanted.toNat (pipe.nread % PIPE_SIZE)
      wanted pipe.nread inRing (Nat.le_refl _)
    simp only [← wantedIs, copied] at readOk
    cases readOk
    have readBound := pipe.nread.toNat_lt
    have writeBound := pipe.nwrite.toNat_lt
    have before := pipe.available_eq
    have left : ({ pipe with nread := pipe.nread + count } : Pipe).available =
        pipe.available - count.toNat := by
      rw [available_eq]
      simp only [UInt32.toNat_add]
      omega
    refine ⟨wantedSize, by simpa using wantedSize, ?_, left, rfl⟩
    simp only [stored, left]
    have split : pipe.available = count.toNat + (pipe.available - count.toNat) := by
      omega
    conv_rhs => rw [split, Ring.window_add]
    congr 1
    · apply Ring.window_congr_start
      rw [UInt32.toNat_mod, toNat_PIPE_SIZE, Nat.mod_mod]
    · apply Ring.window_congr_start
      rw [UInt32.toNat_add]
      omega

/-! ## Writing -/

theorem pipewriteChunk_spec {pipe next : Pipe} {usrc : Nat → UInt8}
    {len totalWritten count : UInt32} (bounded : pipe.Bounded) (pending : totalWritten < len)
    (wrote : pipe.pipewriteChunk usrc len totalWritten = some (count, next)) :
    0 < count.toNat ∧ count.toNat ≤ len.toNat - totalWritten.toNat ∧
      (totalWritten + count).toNat = totalWritten.toNat + count.toNat ∧
      next.stored = pipe.stored ++ Ring.slice usrc totalWritten.toNat count.toNat ∧
      next.available = pipe.available + count.toNat ∧ next.Bounded := by
  simp only [pipewriteChunk] at wrote
  split at wrote
  · cases wrote
  next someRoom =>
    obtain ⟨start, startIs⟩ : ∃ start, start = pipe.nwrite % PIPE_SIZE := ⟨_, rfl⟩
    obtain ⟨wanted, wantedIs⟩ : ∃ wanted, wanted =
        if len - totalWritten < pipe.pipeWritableSize then len - totalWritten
        else pipe.pipeWritableSize := ⟨_, rfl⟩
    obtain ⟨chunk, chunkIs⟩ : ∃ chunk, chunk =
        if wanted < PIPE_SIZE - start then wanted else PIPE_SIZE - start := ⟨_, rfl⟩
    have totalLess : totalWritten.toNat < len.toNat := UInt32.lt_iff_toNat_lt.mp pending
    have pendingSize : (len - totalWritten).toNat = len.toNat - totalWritten.toNat :=
      UInt32.toNat_sub_of_le _ _ (UInt32.le_iff_toNat_le.mpr (Nat.le_of_lt totalLess))
    have room : pipe.pipeWritableSize.toNat ≠ 0 := fun zero =>
      someRoom (UInt32.toNat_inj.mp (by simpa using zero))
    have roomSize := toNat_pipeWritableSize bounded
    have startSize : start.toNat = pipe.nwrite.toNat % 64 := by
      rw [startIs, UInt32.toNat_mod, toNat_PIPE_SIZE]
    have startLe : start ≤ PIPE_SIZE := by
      rw [UInt32.le_iff_toNat_le, toNat_PIPE_SIZE]
      omega
    have tailSize : (PIPE_SIZE - start).toNat = 64 - start.toNat :=
      UInt32.toNat_sub_of_le _ _ startLe
    have wantedSize : wanted.toNat =
        min (len.toNat - totalWritten.toNat) (64 - pipe.available) := by
      rw [← pendingSize, ← roomSize, wantedIs]
      exact toNat_ite_lt _ _
    have chunkSize : chunk.toNat = min wanted.toNat (64 - start.toNat) := by
      rw [← tailSize, chunkIs]
      exact toNat_ite_lt _ _
    simp only [← startIs, ← wantedIs, ← chunkIs] at wrote
    cases wrote
    have bound : pipe.available ≤ 64 := bounded
    have lenBound := len.toNat_lt
    have readBound := pipe.nread.toNat_lt
    have writeBound := pipe.nwrite.toNat_lt
    have before := pipe.available_eq
    have after : ({ pipe with
        nwrite := pipe.nwrite + count
        buf := Ring.store pipe.buf start.toNat count.toNat
          fun index => usrc (totalWritten.toNat + index) } : Pipe).available =
        pipe.available + count.toNat := by
      rw [available_eq]
      simp only [UInt32.toNat_add]
      omega
    refine ⟨by omega, by omega, ?_, ?_, after, ?_⟩
    · rw [UInt32.toNat_add]
      omega
    · simp only [stored, after]
      have position : start.toNat = (pipe.nread.toNat + pipe.available) % 64 := by
        rw [startSize, nwrite_mod]
      rw [position, Ring.window_store]
      · simp [Ring.slice]
      · omega
      · omega
    · rw [Bounded, after]
      omega

end Pipe
end Tnix.Fs
