import Tnix.Mem.TaskMapping

/-! # `sys_free` and what was allocated

`sys_alloc` returns a virtual address. `sys_free` looks for it among the physical addresses of the
vmas, and never unmaps a page. -/

namespace Tnix.Vm

open Mem Program
variable {Task : Type} [DecidableEq Task] {t : Task} {state after : VmState Task} {a0 : U64}

/-- A history of calls of a task that begins without a heap, and the addresses that it has
allocated and not freed since. A refused free frees nothing. -/
inductive Heap (t : Task) : VmState Task → List U64 → Prop
  | start {state : VmState Task} {mm : TaskMm} (isMm : state.mm t = some mm)
      (noHeap : ∀ vma ∈ mm.vmas, vma.type ≠ .HEAP) : Heap t state []
  | alloc {state after : VmState Task} {live : List U64} {mm : TaskMm} {va : U64}
      (heap : Heap t state live) (isMm : state.mm t = some mm)
      (notFull : mm.nextHeap ≠ BitVec.ofNat 64 USTACK)
      (ran : sysAlloc t state = .ok (va, after)) : Heap t after (va :: live)
  | free {state after : VmState Task} {live : List U64} {a0 result : U64}
      (heap : Heap t state live) (ran : sysFree t a0 state = .ok (result, after)) :
      Heap t after (if result = 0 then live.filter (· ≠ a0) else live)

/-- The mapping, the vma and the page of `va` are given back, and all else is as before. -/
structure Released (state after : VmState Task) (t : Task) (mm : TaskMm) (vma : Vma) (va : U64) :
    Prop where
  isVma : vma ∈ mm.vmas ∧ vma.va = va
  vmas : after.mm = Function.update state.mm t
    (some { mm with vmas := mm.vmas.filter (·.va ≠ va) })
  mapping : ∀ x, translation after.pages mm.pagetable x =
    if OnPages va (BitVec.ofNat 64 PGSIZE) x then .ok (0, none)
    else translation state.pages mm.pagetable x
  freeList : ∀ free : List Nat, state.pages.links.Circular (.head none) (free.map .page) →
    after.pages.links.Circular (.head none) ((free ++ [pageOf vma.pa]).map .page)
  inuse : after.pages.inuse = Function.update state.pages.inuse (pageOf vma.pa) false
  words : ∀ q, q ≠ pageOf vma.pa → ¬ InTable state.pages mm.pagetable q →
    after.words q = state.words q

/-- What a free should do: undo the allocation of the address, or refuse. -/
structure FreesExactly (state : VmState Task) (t : Task) (mm : TaskMm) (live : List U64)
    (a0 : U64) : Prop where
  released : a0 ∈ live → ∃ after vma, sysFree t a0 state = .ok (0, after) ∧
    Released state after t mm vma a0
  refused : a0 ∉ live → sysFree t a0 state = .ok (-1, state)

theorem freeHeap_keeps : ∀ (vmas : List Vma) {state : VmState Task},
    Ensures (freeHeap a0 vmas) state fun _ after => after.mm = state.mm
  | [], _ => ensures_pure.mpr rfl
  | vma :: rest, state => by
      rw [freeHeap]
      split
      · refine ensures_bind.mpr fun _ middle ran => (freeHeap_keeps rest).mono ?_
        rintro _ after same
        rw [same]
        simp only [freeSlot] at ran
        split at ran
        case h_1 => cases ran
        case h_2 => cases ran; rfl
      · exact freeHeap_keeps rest

theorem freeHeap_eq {vmas : List Vma} (absent : ∀ vma ∈ vmas, vma.isHeapAt a0 = false)
    (state : VmState Task) : freeHeap a0 vmas state = .ok ((), state) := by
  induction vmas with
  | nil => rfl
  | cons vma rest induction =>
    rw [freeHeap, absent vma List.mem_cons_self]
    exact induction fun other isIn => absent other (List.mem_cons_of_mem _ isIn)

section
variable {mm : TaskMm} (isMm : state.mm t = some mm)
include isMm

theorem sysFree_ensures (notZero : a0 ≠ 0) (aligned : a0.toNat % PGSIZE = 0) :
    Ensures (sysFree t a0) state fun _ after =>
      after.mm t = some { mm with vmas := mm.vmas.filter (!·.isHeapAt a0) } := by
  have found : mmOf t state = .ok (mm, state) := by rw [mmOf, isMm]
  rw [sysFree, if_neg notZero, if_neg (not_not.mpr aligned)]
  refine ensures_bind.mpr ((ensures_iff_of_ok found).mpr (ensures_bind.mpr ?_))
  refine (freeHeap_keeps mm.vmas).mono fun _ middle _ => ?_
  refine ensures_bind.mpr (ensures_modify.mpr (ensures_pure.mpr ?_))
  exact Function.update_self _ _ _

omit isMm in
theorem sysFree_result : Ensures (sysFree t a0) state fun result _ => result = -1 := by
  rw [sysFree]
  split
  · exact ensures_pure.mpr rfl
  · split
    · exact ensures_pure.mpr rfl
    · exact ensures_bind.mpr fun _ _ _ => ensures_bind.mpr fun _ _ _ =>
        ensures_bind.mpr fun _ _ _ => ensures_pure.mpr rfl

theorem sysFree_nothing (absent : ∀ vma ∈ mm.vmas, vma.isHeapAt a0 = false) :
    sysFree t a0 state = .ok (-1, state) := by
  have found : mmOf t state = .ok (mm, state) := by rw [mmOf, isMm]
  have kept : mm.vmas.filter (!·.isHeapAt a0) = mm.vmas :=
    List.filter_eq_self.mpr fun vma isIn => by rw [absent vma isIn, Bool.not_false]
  have same : state.setMm t mm = state := by
    rw [VmState.setMm, ← isMm, Function.update_eq_self]
  rw [sysFree]
  split
  · rfl
  · split
    · rfl
    · rw [bind_of_ok found, bind_of_ok (freeHeap_eq absent state), kept]
      show Except.ok (-1, state.setMm t mm) = _
      rw [same]

end

theorem sysAlloc_mm (notFull : ∀ mm, state.mm t = some mm → mm.nextHeap ≠ BitVec.ofNat 64 USTACK) :
    Ensures (sysAlloc t) state fun _ after => (after.mm t).isSome = true := by
  rw [sysAlloc, ensures_bind]
  intro mm middle ran
  simp only [mmOf] at ran
  split at ran
  case h_1 => cases ran
  case h_2 found isFound =>
    cases ran
    rw [if_neg (notFull mm isFound)]
    refine ensures_bind.mpr fun _ _ _ => ensures_bind.mpr fun _ _ _ => ensures_bind.mpr
      fun _ _ _ => ensures_bind.mpr (ensures_modify.mpr (ensures_pure.mpr ?_))
    simp [VmState.setMm]

theorem Heap.exists_mm {live : List U64} (heap : Heap t state live) :
    ∃ mm, state.mm t = some mm := by
  induction heap with
  | start isMm => exact ⟨_, isMm⟩
  | alloc _ isMm notFull ran =>
    refine Option.isSome_iff_exists.mp (sysAlloc_mm (fun mm found => ?_) _ _ ran)
    cases isMm.symm.trans found
    exact notFull
  | @free _ _ _ a0 _ _ ran induction =>
    rcases induction with ⟨mm, isMm⟩
    by_cases refused : a0 = 0 ∨ a0.toNat % PGSIZE ≠ 0
    · rw [sysFree] at ran
      split at ran
      · cases ran; exact ⟨mm, isMm⟩
      · rw [if_pos (refused.resolve_left ‹_›)] at ran
        cases ran
        exact ⟨mm, isMm⟩
    · rw [not_or, not_not] at refused
      exact ⟨_, sysFree_ensures isMm refused.1 refused.2 _ _ ran⟩

/-- After any history a free does what it should if and only if its argument is not an
allocated address, and not the physical address of a page of the heap. -/
theorem freesExactly_iff {live : List U64} (heap : Heap t state live) (a0 : U64) :
    ∃ mm, state.mm t = some mm ∧ (FreesExactly state t mm live a0 ↔
      a0 ∉ live ∧
        (a0 = 0 ∨ a0.toNat % PGSIZE ≠ 0 ∨ ∀ vma ∈ mm.vmas, vma.isHeapAt a0 = false)) := by
  rcases heap.exists_mm with ⟨mm, isMm⟩
  refine ⟨mm, isMm, ?_⟩
  constructor
  · intro frees
    have notLive : a0 ∉ live := by
      intro isLive
      rcases frees.released isLive with ⟨after, _, ran, _⟩
      cases sysFree_result _ _ ran
    refine ⟨notLive, ?_⟩
    by_contra tried
    simp only [not_or, not_not] at tried
    have kept : state.mm t = _ := sysFree_ensures isMm tried.1 tried.2.1 _ _ (frees.refused notLive)
    rw [isMm, Option.some.injEq] at kept
    have all := List.filter_eq_self.mp (congrArg TaskMm.vmas kept).symm
    exact tried.2.2 fun vma isIn => by simpa using all vma isIn
  · rintro ⟨notLive, refused⟩
    refine ⟨fun isLive => absurd isLive notLive, fun _ => ?_⟩
    rcases refused with rfl | unaligned | absent
    · rfl
    · rw [sysFree, if_pos unaligned]
      split <;> rfl
    · exact sysFree_nothing isMm absent

def heapLinks : NodeLinks (Node Unit) where
  next
    | .head none => some (.page 1)
    | .head (some t) => some (.head (some t))
    | .page p => some (if p < 4 then .page (p + 1) else .head none)
  prev
    | .head none => some (.page 4)
    | .head (some t) => some (.head (some t))
    | .page p => some (if 1 < p then .page (p - 1) else .head none)

def heapState : VmState Unit where
  mem := ⟨⟨heapLinks, fun _ => false, fun _ _ => ⟨none, false⟩⟩, fun _ _ => ⟨0, none⟩⟩
  words _ _ := 0
  mm _ := some ⟨(0, 0), 0, [], 0x1000⟩

theorem heap_heapState : ∃ (after : VmState Unit) (mm : TaskMm), Heap () after [0x1000] ∧
    after.mm () = some mm ∧ ∀ vma ∈ mm.vmas, vma.isHeapAt 0x2000 = false := by
  have allocates : (sysAlloc () heapState).toOption.any fun result => result.1 = 0x1000 ∧
      (result.2.mm ()).any fun mm => mm.vmas.all (!·.isHeapAt 0x2000) := by decide +kernel
  rcases (Option.any_eq_true _ _).mp allocates with ⟨⟨va, after⟩, isResult, found⟩
  cases ran : sysAlloc () heapState with
  | error => rw [ran] at isResult; cases isResult
  | ok result =>
    rw [ran] at isResult
    cases isResult
    rcases of_decide_eq_true found with ⟨rfl, checked⟩
    rcases (Option.any_eq_true _ _).mp checked with ⟨mm, isMm, absent⟩
    have heap : Heap () after [0x1000] :=
      .alloc (.start rfl fun _ isIn => absurd isIn List.not_mem_nil) rfl (by decide) ran
    exact ⟨after, mm, heap, isMm, fun vma isIn => by simpa using List.all_eq_true.mp absent vma isIn⟩

/-- A page is allocated, and an address that was not allocated is freed. -/
theorem freesExactly_heapState : ∃ (after : VmState Unit) (mm : TaskMm),
    Heap () after [0x1000] ∧ FreesExactly after () mm [0x1000] 0x2000 := by
  rcases heap_heapState with ⟨after, mm, heap, isMm, absent⟩
  rcases freesExactly_iff heap 0x2000 with ⟨found, isFound, exactly⟩
  cases isMm.symm.trans isFound
  exact ⟨after, mm, heap, exactly.mpr ⟨by decide, .inr (.inr absent)⟩⟩

theorem sysFree_refuses : ∃ (after : VmState Unit) (mm : TaskMm), Heap () after [0x1000] ∧
    after.mm () = some mm ∧ ¬ FreesExactly after () mm [0x1000] 0x1000 := by
  rcases heap_heapState with ⟨after, mm, heap, isMm, _⟩
  refine ⟨after, mm, heap, isMm, fun frees => ?_⟩
  rcases frees.released List.mem_cons_self with ⟨_, _, freed, _⟩
  cases sysFree_result _ _ freed

end Tnix.Vm
