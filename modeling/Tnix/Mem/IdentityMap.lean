import Tnix.Mem.KernelMap

/-! # What the kernel may access

The memory is mapped to itself, nothing may be both written and executed, and the code and the
constants may not be written. -/

namespace Tnix.Vm

open Mem Program
variable {Task : Type} {stop : Nat} {live : Task → Prop} {loose : Nat → Prop} {start free : List Nat}
  {pages : Pages Task Words} {root : Nat}

def mayWrite (flags : U64) : Bool := flags.getLsbD 2

def mayExecute (flags : U64) : Bool := flags.getLsbD 3

def mayRead (flags : U64) : Bool := flags.getLsbD 1

def Layout.Constant (layout : Layout) (x : U64) : Prop :=
  (KBASE ≤ x.toNat ∧ x.toNat < layout.etext.toNat) ∨
    (layout.trampoline.toNat ≤ x.toNat ∧ x.toNat < layout.trampoline.toNat + PGSIZE) ∨
    (layout.brodata.toNat ≤ x.toNat ∧ x.toNat < layout.erodata.toNat)

structure IdentityMap (layout : Layout) (pages : Pages Task Words) (root : Nat) : Prop where
  identity : ∀ x : U64, KBASE ≤ x.toNat → x.toNat < PHY_TOP →
    ∃ flags, sv39 pages root x = some (x, flags)
  trampoline : ∀ x : U64, TRAMPOLINE ≤ x.toNat → x.toNat < TRAMPOLINE + PGSIZE → ∃ flags,
    sv39 pages root x = some (layout.trampoline + (x - BitVec.ofNat 64 TRAMPOLINE), flags)
  exclusive : ∀ x address flags, sv39 pages root x = some (address, flags) →
    ¬ (mayWrite flags = true ∧ mayExecute flags = true)
  /-- No address leads to them for a write. -/
  constant : ∀ x address flags, sv39 pages root x = some (address, flags) →
    layout.Constant address → mayWrite flags = false
  /-- The pages after the kernel. -/
  memory : ∀ x : U64, alignUp layout.stop.toNat PGSIZE ≤ x.toNat → x.toNat < PHY_TOP →
    ∃ flags, sv39 pages root x = some (x, flags) ∧ mayRead flags = true ∧ mayWrite flags = true

/-! ## What the regions are for -/

inductive Purpose (layout : Layout) (region : Region) : Prop
  /-- Data and devices. -/
  | data (same : region.pa = region.va) (attr : region.attr = PTE_R ||| PTE_W)
      (elsewhere : ∀ x, region.Has x → layout.dataStart ≤ x.toNat ∨ x.toNat < KBASE)
  /-- Code and constants. -/
  | constant (same : region.pa = region.va)
      (attr : region.attr = PTE_R ||| PTE_X ∨ region.attr = PTE_R)
  /-- The trampoline at its high address. -/
  | trampoline (isBase : region.va = BitVec.ofNat 64 TRAMPOLINE)
      (isTarget : region.pa = layout.trampoline) (attr : region.attr = PTE_R ||| PTE_X)

namespace Layout

variable (layout : Layout)

theorem purpose {region : Region} (isRegion : region ∈ layout.regions) :
    Purpose layout region := by
  have order := layout.ordered
  have sizes := layout.sizes
  have ends := layout.ends
  rcases layout.toNat_starts with ⟨memoryStart, largeStart⟩
  have chain := order.chain
  simp only [regions, kernelRegions, deviceRegions, List.cons_append, List.nil_append,
    List.mem_cons, List.not_mem_nil, or_false] at isRegion
  rcases isRegion with rfl | rfl | rfl | rfl | rfl | rfl | rfl | isDevice
  · refine .data rfl rfl fun x isHere => .inl ?_
    have above : (BitVec.ofNat 64 layout.largeStart).toNat ≤ x.toNat := isHere.1
    omega
  · refine .data rfl rfl fun x isHere => .inl ?_
    have above : (BitVec.ofNat 64 layout.memoryStart).toNat ≤ x.toNat := isHere.1
    omega
  · refine .data rfl rfl fun x isHere => .inl ?_
    have above : layout.kdata.toNat ≤ x.toNat := isHere.1
    rwa [sizes.kdata] at above
  · exact .constant rfl (.inr rfl)
  · exact .trampoline rfl rfl rfl
  · exact .constant rfl (.inl rfl)
  · exact .constant rfl (.inl rfl)
  · rcases isDevice with rfl | rfl | rfl | rfl | rfl
    all_goals
      refine .data rfl rfl fun x isHere => .inr (Nat.lt_of_lt_of_le isHere.2 (by decide))

def highTrampoline : Region :=
  smallRegion (BitVec.ofNat 64 TRAMPOLINE) layout.trampoline (BitVec.ofNat 64 PGSIZE)
    (PTE_R ||| PTE_X)

theorem bound_le {region : Region} (isRegion : region ∈ layout.regions) :
    region.bound.toNat ≤ 0xA0000000 ∨ region = layout.highTrampoline := by
  have order := layout.ordered
  have ends := layout.ends
  rcases layout.toNat_starts with ⟨memoryStart, largeStart⟩
  have chain := order.chain
  simp only [regions, kernelRegions, deviceRegions, List.cons_append, List.nil_append,
    List.mem_cons, List.not_mem_nil, or_false] at isRegion
  rcases isRegion with rfl | rfl | rfl | rfl | rfl | rfl | rfl | isDevice
  · exact .inl (Nat.le_refl _)
  · left
    simp only [smallMemory, largeStart]
    omega
  · left
    simp only [smallRegion, ends.data]
    omega
  · left
    simp only [smallRegion, ends.rodata]
    omega
  · exact .inr rfl
  · left
    simp only [smallRegion, ends.trampoline]
    omega
  · left
    simp only [smallRegion, ends.code]
    omega
  · left
    rcases isDevice with rfl | rfl | rfl | rfl | rfl <;> decide

theorem bound_highTrampoline : layout.highTrampoline.bound.toNat = 2 ^ 38 :=
  show (rangeEnd (BitVec.ofNat 64 TRAMPOLINE) (BitVec.ofNat 64 PGSIZE) .S_PAGE).toNat = 2 ^ 38 by
    decide

theorem exists_region {x : U64} (above : KBASE ≤ x.toNat) (below : x.toNat < PHY_TOP) :
    ∃ region ∈ layout.regions, region.Has x := by
  have order := layout.ordered
  have sizes := layout.sizes
  have ends := layout.ends
  rcases layout.toNat_starts with ⟨memoryStart, largeStart⟩
  by_cases large : layout.largeStart ≤ x.toNat
  · exact ⟨layout.largeMemory, by simp [regions], largeStart.le.trans large, below⟩
  by_cases small : layout.memoryStart ≤ x.toNat
  · refine ⟨layout.smallMemory, by simp [regions], memoryStart.le.trans small, ?_⟩
    simp only [smallMemory, largeStart]
    omega
  by_cases data : layout.dataStart ≤ x.toNat
  · refine ⟨smallRegion layout.kdata layout.kdata layout.kdataSize (PTE_R ||| PTE_W),
      by simp [regions, kernelRegions], ?_, ?_⟩
    · simp only [smallRegion, sizes.kdata]
      exact data
    · simp only [smallRegion, ends.data]
      omega
  by_cases rodata : layout.brodata.toNat ≤ x.toNat
  · refine ⟨smallRegion layout.krodata layout.krodata layout.krodataSize PTE_R,
      by simp [regions, kernelRegions], rodata, ?_⟩
    simp only [smallRegion, ends.rodata]
    omega
  by_cases trampoline : layout.trampoline.toNat ≤ x.toNat
  · refine ⟨smallRegion layout.trampoline layout.trampoline (BitVec.ofNat 64 PGSIZE)
      (PTE_R ||| PTE_X), by simp [regions, kernelRegions], trampoline, ?_⟩
    simp only [smallRegion, ends.trampoline]
    omega
  · refine ⟨smallRegion (BitVec.ofNat 64 KBASE) (BitVec.ofNat 64 KBASE) layout.kcodeSize
      (PTE_R ||| PTE_X), by simp [regions, kernelRegions], above, ?_⟩
    simp only [smallRegion, ends.code]
    omega

theorem sv39_eq_translateIn (leaves : ∀ x : U64, x.toNat < 2 ^ 39 →
      leafOf pages root (indices x) = leafIn layout.regions x) (x : U64) :
    sv39 pages root x = translateIn layout.regions x := by
  have nowhere : ∀ y : U64, 2 ^ 38 ≤ y.toNat → ∀ region ∈ layout.regions, ¬ region.Has y := by
    intro y high region isRegion isHere
    have below : y.toNat < region.bound.toNat := isHere.2
    rcases layout.bound_le isRegion with bound | rfl
    · omega
    · rw [layout.bound_highTrampoline] at below
      omega
  by_cases low : x.toNat < 2 ^ 38
  · rw [sv39_eq pages root (.inl low), leaves x (by omega), physical_leafIn (sound_regions layout)]
  · rw [translateIn_eq_none (nowhere x (by omega))]
    by_cases canonical : Canonical x
    · have upper : 2 ^ 64 - 2 ^ 38 ≤ x.toNat := canonical.resolve_left low
      have value : (BitVec.ofNat 64 (x.toNat % 2 ^ 39)).toNat = x.toNat % 2 ^ 39 := by
        rw [BitVec.toNat_ofNat]
        omega
      have high : 2 ^ 38 ≤ (BitVec.ofNat 64 (x.toNat % 2 ^ 39)).toNat := by
        have inWord := x.isLt
        rw [value]
        omega
      rw [sv39_eq pages root canonical, indices_upper, leaves _ (by rw [value]; omega),
        leafIn_eq_none (nowhere _ high)]
      rfl
    · rw [sv39, if_neg canonical]

end Layout

/-! ## The table of the kernel -/

variable {x : U64} {layout : Layout}

theorem Layout.not_elsewhere (layout : Layout) (isConstant : layout.Constant x) :
    ¬ (layout.dataStart ≤ x.toNat ∨ x.toNat < KBASE) := by
  have order := layout.ordered
  have chain := order.chain
  have etext : layout.etext.toNat ≤ layout.trampoline.toNat := by
    rw [layout.trampoline_eq]
    exact le_alignUp _ (by decide)
  have erodata : layout.erodata.toNat ≤ layout.dataStart := le_alignUp _ (by decide)
  have page : PGSIZE = 4096 := rfl
  have kbase : KBASE = 0x80000000 := rfl
  rw [Layout.Constant] at isConstant
  omega

theorem mayWrite_flags (attr : BitVec 16) :
    mayWrite (PTE_V ||| attr.setWidth 64) = attr.getLsbD 2 := by
  rw [mayWrite, BitVec.getLsbD_or, BitVec.getLsbD_setWidth]
  simp [PTE_V]

theorem translateIn_identity (above : KBASE ≤ x.toNat) (below : x.toNat < PHY_TOP) :
    ∃ flags, translateIn layout.regions x = some (x, flags) := by
  rcases layout.exists_region above below with ⟨region, isRegion, isHere⟩
  rcases translateIn_of_mem isRegion isHere with ⟨⟨address, flags⟩, found⟩
  rcases translateIn_eq_some found with ⟨mapped, isFound, isThere, isAddress, _⟩
  have identity : ∀ base : U64, base + (x - base) = x := by
    intro base
    rw [BitVec.add_comm, BitVec.sub_add_cancel]
  refine ⟨flags, found.trans ?_⟩
  cases layout.purpose isFound with
  | data same _ _ => rw [isAddress, same, identity]
  | constant same _ => rw [isAddress, same, identity]
  | trampoline isBase _ _ =>
    have atTop : mapped.va.toNat ≤ x.toNat := isThere.1
    rw [isBase] at atTop
    exact absurd (Nat.lt_of_le_of_lt atTop below) (by decide)

theorem translateIn_trampoline (above : TRAMPOLINE ≤ x.toNat)
    (below : x.toNat < TRAMPOLINE + PGSIZE) : ∃ flags, translateIn layout.regions x =
      some (layout.trampoline + (x - BitVec.ofNat 64 TRAMPOLINE), flags) := by
  have isRegion : layout.highTrampoline ∈ layout.regions := by
    simp [Layout.regions, Layout.kernelRegions, Layout.highTrampoline]
  have isHere : layout.highTrampoline.Has x := by
    refine ⟨above, ?_⟩
    rw [layout.bound_highTrampoline]
    exact below
  rcases translateIn_of_mem isRegion isHere with ⟨⟨address, flags⟩, found⟩
  rcases translateIn_eq_some found with ⟨other, isOther, isThere, isAddress, _⟩
  have within : x.toNat < other.bound.toNat := isThere.2
  have high : 0xA0000000 ≤ x.toNat := Nat.le_trans (by decide) above
  rcases layout.bound_le isOther with bound | rfl
  · omega
  · exact ⟨flags, found.trans (by rw [isAddress]; rfl)⟩

theorem translateIn_memory (above : alignUp layout.stop.toNat PGSIZE ≤ x.toNat)
    (below : x.toNat < PHY_TOP) :
    translateIn layout.regions x = some (x, PTE_V ||| (PTE_R ||| PTE_W).setWidth 64) := by
  have order := layout.ordered
  rcases layout.toNat_starts with ⟨memoryStart, largeStart⟩
  have identity : ∀ base : U64, base + (x - base) = x := by
    intro base
    rw [BitVec.add_comm, BitVec.sub_add_cancel]
  rw [Layout.regions, translateIn]
  by_cases large : layout.largeMemory.Has x
  · rw [if_pos large]
    simp only [Layout.largeMemory, identity]
  · rw [if_neg large, translateIn, if_pos]
    · simp only [Layout.smallMemory, identity]
    · refine ⟨memoryStart.le.trans above, ?_⟩
      by_contra notBelow
      apply large
      simp only [Layout.smallMemory, Nat.not_lt] at notBelow
      exact ⟨notBelow, below⟩

/-- The table of `init_page` is the identity on the memory, for every placement of the
kernel. -/
theorem initPage_identityMap [DecidableEq Task] (layout : Layout)
    (pool : Pool stop live loose pages start) :
    YieldsOr (initPage layout.toSymbols) pages (Exhausted start kernelTables) fun root after =>
      IdentityMap layout after root := by
  refine (initPage_regions layout pool).mono ?_ (fun _ => id)
  rintro root after ⟨rest, _, leaves⟩
  have walk := layout.sv39_eq_translateIn leaves
  refine ⟨?_, ?_, ?_, ?_, ?_⟩
  · intro x above below
    rw [walk]
    exact translateIn_identity above below
  · intro x above below
    rw [walk]
    exact translateIn_trampoline above below
  · intro x address flags found
    rw [walk] at found
    rcases translateIn_eq_some found with ⟨region, isRegion, _, _, rfl⟩
    cases layout.purpose isRegion with
    | data _ attr _ =>
      rw [attr]
      decide
    | constant _ attr =>
      rcases attr with attr | attr
      all_goals
        rw [attr]
        decide
    | trampoline _ _ attr =>
      rw [attr]
      decide
  · intro x address flags found isConstant
    rw [walk] at found
    rcases translateIn_eq_some found with ⟨region, isRegion, isHere, isAddress, rfl⟩
    rw [mayWrite_flags]
    cases layout.purpose isRegion with
    | data same attr elsewhere =>
      rw [same, BitVec.add_comm, BitVec.sub_add_cancel] at isAddress
      rw [isAddress] at isConstant
      exact absurd (elsewhere x isHere) (layout.not_elsewhere isConstant)
    | constant _ attr =>
      rcases attr with attr | attr
      all_goals
        rw [attr]
        decide
    | trampoline _ _ attr =>
      rw [attr]
      decide
  · intro x above below
    rw [walk, translateIn_memory above below]
    exact ⟨_, rfl, by decide, by decide⟩

def smallLayout : Layout where
  etext := 0x8000FF00
  trampoline := 0x80010000
  brodata := 0x80011000
  erodata := 0x80012345
  stop := 0x80200000
  trampolineSize := 0x100
  kbase_le := by decide
  trampoline_eq := by decide
  trampoline_pos := by decide
  trampoline_le := by decide
  brodata_eq := by decide
  brodata_le := by decide
  erodata_le := by decide
  stop_lt := by decide

theorem length_freePages_smallLayout :
    kernelTables ≤ (freePages smallLayout.stop.toNat NPAGE).length := by
  have isFree : List.range' 512 kernelTables ⊆ freePages smallLayout.stop.toNat NPAGE := by
    intro p isLater
    have memory : alignUp smallLayout.stop.toNat PGSIZE = 0x80200000 := by decide
    have page : p * PGSIZE = p * 4096 := rfl
    have base : PHY_MEMORY = 0x80000000 := rfl
    have tables : kernelTables = 267 := rfl
    have count : NPAGE = 131072 := rfl
    rw [List.mem_range'_1] at isLater
    rw [mem_freePages, Pages.reserved, memory, decide_eq_false_iff_not, page]
    omega
  calc kernelTables = (List.range' 512 kernelTables).length := List.length_range'.symm
    _ ≤ (freePages smallLayout.stop.toNat NPAGE).length :=
      (List.subperm_of_subset List.nodup_range' isFree).length_le

theorem initPage_identityMap_smallLayout : ∃ (pages after : Pages Unit Words) (root : Nat),
    initPage smallLayout.toSymbols pages = .ok (root, after) ∧
      IdentityMap smallLayout after root := by
  rcases @initMemory_holds Unit Words _ smallLayout.stop.toNat (fun _ _ => 0) with
    ⟨pages, _, holds⟩
  have pool : Pool smallLayout.stop.toNat (fun _ : Unit => False) (fun _ => False) pages
      (freePages smallLayout.stop.toNat NPAGE) :=
    ⟨_, holds, fun _ isLive => isLive.elim, fun _ isLoose => isLoose.elim⟩
  have noExcuse : ∀ fault, ¬ Exhausted (freePages smallLayout.stop.toNat NPAGE) kernelTables
      fault := fun fault isExcused =>
    absurd isExcused.2 (Nat.not_lt.mpr length_freePages_smallLayout)
  rcases (initPage_identityMap smallLayout pool).yields noExcuse with ⟨root, after, ran, isMap⟩
  exact ⟨pages, after, root, ran, isMap⟩

end Tnix.Vm
