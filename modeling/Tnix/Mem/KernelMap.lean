import Mathlib.Order.Interval.Finset.Nat
import Tnix.Mem.Regions

/-! # The page table of the kernel

`init_page` of `vm.c`, for the symbols that `kernel.ld` places. -/

namespace Tnix.Vm

open Mem Program Finset
variable {Task : Type} [DecidableEq Task]

/-! ## `init_page` -/

structure Symbols where
  etext : U64
  trampoline : U64
  brodata : U64
  erodata : U64
  stop : U64

def alignUpWord (x : U64) (align : Nat) : U64 := BitVec.ofNat 64 (alignUp x.toNat align)

namespace Symbols

variable (symbols : Symbols)

def kcodeSize : U64 := alignUpWord symbols.etext PGSIZE - BitVec.ofNat 64 KBASE

def krodata : U64 := symbols.brodata

def krodataSize : U64 := alignUpWord symbols.erodata PGSIZE - symbols.krodata

def kdata : U64 := symbols.krodata + symbols.krodataSize

def kdataSize : U64 := alignUpWord symbols.stop PGSIZE - symbols.kdata

end Symbols

/-- A loop of `init_page`: it calls `vmmap` to map a page of `size` bytes to itself, as long as
`more` holds. -/
def identityFrom (vmmap : U64 → U64 → U64 → BitVec 16 → VmM Task Unit) (size : Nat)
    (more : U64 → Bool) : Nat → U64 → VmM Task U64
  | 0, _ => throw .endless
  | fuel + 1, va =>
    if more va then do
      vmmap va va (BitVec.ofNat 64 size) (PTE_R ||| PTE_W)
      identityFrom vmmap size more fuel (va + BitVec.ofNat 64 size)
    else return va

def mapBound : Nat := if PHY_TOP < VA_TOP then PHY_TOP else VA_TOP

def mapDevices (ptb : Nat) : VmM Task Unit := do
  svmmap ptb (BitVec.ofNat 64 POWER) (BitVec.ofNat 64 POWER) (BitVec.ofNat 64 POWER_SIZE)
    (PTE_R ||| PTE_W) none
  svmmap ptb (BitVec.ofNat 64 CLINT) (BitVec.ofNat 64 CLINT) (BitVec.ofNat 64 CLINT_SIZE)
    (PTE_R ||| PTE_W) none
  svmmap ptb (BitVec.ofNat 64 PLIC) (BitVec.ofNat 64 PLIC) (BitVec.ofNat 64 PLIC_SIZE)
    (PTE_R ||| PTE_W) none
  svmmap ptb (BitVec.ofNat 64 UART0) (BitVec.ofNat 64 UART0) (BitVec.ofNat 64 UART0_SIZE)
    (PTE_R ||| PTE_W) none
  svmmap ptb (BitVec.ofNat 64 VIRIO) (BitVec.ofNat 64 VIRIO) (BitVec.ofNat 64 VIRIO_SIZE)
    (PTE_R ||| PTE_W) none

def mapSections (symbols : Symbols) (ptb : Nat) : VmM Task Unit := do
  svmmap ptb (BitVec.ofNat 64 KBASE) (BitVec.ofNat 64 KBASE) symbols.kcodeSize
    (PTE_R ||| PTE_X) none
  svmmap ptb symbols.trampoline symbols.trampoline (BitVec.ofNat 64 PGSIZE)
    (PTE_R ||| PTE_X) none
  svmmap ptb (BitVec.ofNat 64 TRAMPOLINE) symbols.trampoline (BitVec.ofNat 64 PGSIZE)
    (PTE_R ||| PTE_X) none
  svmmap ptb symbols.krodata symbols.krodata symbols.krodataSize PTE_R none
  svmmap ptb symbols.kdata symbols.kdata symbols.kdataSize (PTE_R ||| PTE_W) none

def mapMemory (symbols : Symbols) (ptb : Nat) : VmM Task Unit := do
  let va := alignUpWord (symbols.kdata + symbols.kdataSize) PGSIZE
  let va ← identityFrom (svmmap ptb · · · · none) PGSIZE
    (fun va => va.toNat % MPGSIZE != 0 && decide (va.toNat < mapBound)) (NPAGE + 1) va
  let va ← identityFrom (mvmmap ptb) MPGSIZE
    (fun va => va.toNat % GPGSIZE != 0 && decide (va.toNat < mapBound)) (NPAGE + 1) va
  let _ ← identityFrom (svmmap ptb · · · · none) PGSIZE (fun va => decide (va.toNat < mapBound))
    (NPAGE + 1) va
  return ()

/-- The part of `init_page` for the first CPU, which returns `kernel_pgt`. -/
def initPage (symbols : Symbols) : VmM Task Nat := do
  let kernelPgt ← newTable none
  mapDevices kernelPgt
  mapSections symbols kernelPgt
  mapMemory symbols kernelPgt
  return kernelPgt

/-- The symbols as `kernel.ld` places them: the code, the page of the trampoline, the constants
and the data follow each other, and the constants and the trampoline begin a page. -/
structure Layout extends Symbols where
  trampolineSize : Nat
  kbase_le : KBASE ≤ etext.toNat
  trampoline_eq : trampoline.toNat = alignUp etext.toNat PGSIZE
  trampoline_pos : 0 < trampolineSize
  trampoline_le : trampolineSize ≤ PGSIZE
  brodata_eq : brodata.toNat = alignUp (trampoline.toNat + trampolineSize) PGSIZE
  brodata_le : brodata.toNat ≤ erodata.toNat
  erodata_le : erodata.toNat ≤ stop.toNat
  stop_lt : stop.toNat < PHY_TOP

/-! ## The loops are those of `do_vmmap` -/

section
variable {va bound : U64} {gra : Granularity} {root : Nat} {attr : BitVec 16} {ut : Option Task}

theorem doVmmap_one (aligned : va.toNat % gra.delta = 0) (below : va.toNat + gra.delta ≤ PHY_TOP) :
    doVmmap root va va (BitVec.ofNat 64 gra.delta) attr gra ut =
      mapFrom va va attr gra ut 2 root := by
  have onPage := gra.mod_of_mod_delta aligned
  have positive := gra.delta_pos
  have inRange : va.toNat < VA_TOP := Nat.lt_of_lt_of_le (by omega) (by decide : PHY_TOP ≤ VA_TOP)
  have next := toNat_next inRange gra
  have size : (BitVec.ofNat 64 gra.delta).toNat = gra.delta := by
    rw [BitVec.toNat_ofNat]
    rcases gra.delta_cases with is | is | is <;> rw [is]
  have bound : alignUp (va.toNat + gra.delta) gra.delta = va.toNat + gra.delta := by
    apply Nat.le_antisymm
    · exact alignUp_le positive (Nat.le_refl _) (by rw [Nat.add_mod_right, aligned])
    · exact le_alignUp _ positive
  have isBound : rangeEnd va (BitVec.ofNat 64 gra.delta) gra = va + BitVec.ofNat 64 gra.delta := by
    rw [rangeEnd, next, bound, ← next, BitVec.ofNat_toNat, BitVec.setWidth_eq]
  have turns : ∃ fuel, (va + BitVec.ofNat 64 gra.delta).toNat / PGSIZE + 1 = fuel + 2 := by
    refine ⟨(va + BitVec.ofNat 64 gra.delta).toNat / PGSIZE - 1, ?_⟩
    have atLeast : PGSIZE ≤ (va + BitVec.ofNat 64 gra.delta).toNat := by
      rw [next, gra.delta_eq]
      exact Nat.le_add_left_of_le (Nat.le_mul_of_pos_right _ (Nat.pow_pos (by decide)))
    have one := @Nat.div_le_div_right _ _ PGSIZE atLeast
    rw [Nat.div_self (by decide)] at one
    omega
  rcases turns with ⟨fuel, turns⟩
  have inside : va < va + BitVec.ofNat 64 gra.delta := by
    rw [BitVec.lt_def, next]
    omega
  rw [doVmmap_eq onPage onPage (size.symm ▸ Nat.le_trans below (by decide)) (size.symm ▸ below),
    isBound, turns, mapRangeFrom, if_pos inside, mapRangeFrom, if_neg (BitVec.lt_irrefl _)]
  funext pages
  rw [bind_eq]
  cases mapFrom va va attr gra ut 2 root pages <;> rfl

theorem identityFrom_eq (vmmap : U64 → U64 → U64 → BitVec 16 → VmM Task Unit) (size : Nat)
    (isVmmap : ∀ va pa size attr, vmmap va pa size attr = doVmmap root va pa size attr gra none)
    (isSize : size = gra.delta) {more : U64 → Bool} {low : Nat}
    (boundAligned : bound.toNat % gra.delta = 0) (boundBelow : bound.toNat ≤ PHY_TOP)
    (isMore : ∀ va : U64, low ≤ va.toNat → va.toNat ≤ bound.toNat →
      (more va = true ↔ va.toNat < bound.toNat)) (fuel : Nat) :
    ∀ va : U64, va.toNat % gra.delta = 0 → low ≤ va.toNat → va.toNat ≤ bound.toNat →
      identityFrom vmmap size more fuel va = do
        mapRangeFrom root bound (PTE_R ||| PTE_W) gra none fuel va va return bound := by
  subst isSize
  induction fuel with
  | zero =>
    intro va _ _ _
    rfl
  | succ fuel induction =>
    intro va aligned atLeast atMost
    rw [identityFrom, mapRangeFrom]
    by_cases inside : va < bound
    · have below : va.toNat < bound.toNat := inside
      have boundInRange : bound.toNat ≤ VA_TOP := Nat.le_trans boundBelow (by decide)
      have inRange := Nat.lt_of_lt_of_le below boundInRange
      rcases range_step aligned boundAligned boundInRange below with ⟨nextAligned, step, _⟩
      have next := toNat_next inRange gra
      rw [if_pos ((isMore va atLeast atMost).mpr below), if_pos inside, isVmmap,
        doVmmap_one aligned (by omega), induction _ nextAligned (by omega) (by omega)]
      funext pages
      simp only [bind_eq]
      cases mapFrom va va (PTE_R ||| PTE_W) gra none 2 root pages <;> rfl
    · have notBelow : ¬ va.toNat < bound.toNat := inside
      have isBound : va = bound := by
        apply BitVec.eq_of_toNat_eq
        omega
      rw [if_neg (fun isTrue => notBelow ((isMore va atLeast atMost).mp isTrue)), if_neg inside,
        isBound]
      rfl

end

/-! ## The regions -/

def kernelWays : Finset (List Nat) :=
  {[0], [2], [255], [255, 511]} ∪ ({0, 16, 96, 97, 98, 128} : Finset Nat).image ([0, ·]) ∪
    (Finset.range 256).image ([2, ·])

def kernelTables : Nat := 267

theorem card_kernelWays_lt : kernelWays.card < kernelTables := by
  have devices : (({0, 16, 96, 97, 98, 128} : Finset Nat).image ([0, ·])).card ≤ 6 :=
    Nat.le_trans card_image_le card_le_six
  have memory : ((Finset.range 256).image ([2, ·])).card ≤ 256 :=
    Nat.le_trans card_image_le (card_range 256).le
  have few : ({[0], [2], [255], [255, 511]} : Finset (List Nat)).card ≤ 4 := card_le_four
  calc kernelWays.card
      ≤ (({[0], [2], [255], [255, 511]} : Finset (List Nat)) ∪
          ({0, 16, 96, 97, 98, 128} : Finset Nat).image ([0, ·])).card +
            ((Finset.range 256).image ([2, ·])).card := card_union_le _ _
    _ ≤ 4 + 6 + 256 :=
      Nat.add_le_add (Nat.le_trans (card_union_le _ _) (Nat.add_le_add few devices)) memory
    _ < kernelTables := by decide

theorem aboveLeaves_kernelWays : AboveLeaves kernelWays .S_PAGE := by
  intro path isPath
  simp only [kernelWays, mem_union, mem_insert, mem_singleton, mem_image] at isPath
  rcases isPath with ((rfl | rfl | rfl | rfl) | ⟨_, _, rfl⟩) | ⟨_, _, rfl⟩ <;>
    simp [Granularity.level]

/-- The table has the regions, and the pages that it has got and will still need for
`init_page` are not too many. -/
structure Built (stop : Nat) (live : Task → Prop) (loose : Nat → Prop) (start : List Nat)
    (pages : Pages Task Words)
    (root : Nat) (regions : List Region) (free used : List Nat) : Prop where
  space : Space stop live loose pages free root
  start_eq : start = used ++ free
  budget : used.length + toMake pages root kernelWays ≤ kernelTables
  small : ∀ region ∈ regions, region.gra = .S_PAGE
  leaves : ∀ x : U64, x.toNat < 2 ^ 39 → leafOf pages root (indices x) = leafIn regions x

section
variable {stop : Nat} {live : Task → Prop} {loose : Nat → Prop} {start free used : List Nat}
  {pages : Pages Task Words} {root : Nat} {regions : List Region} {va pa size : U64}
  {attr : BitVec 16}

omit [DecidableEq Task] in
theorem Built.noLarger (built : Built stop live loose start pages root regions free used) {x : U64}
    (walkable : x.toNat < 2 ^ 39) (gra : Granularity) : NoLarger pages root x gra := by
  intro pte below found
  rw [built.leaves x walkable] at found
  rw [length_leafIn built.small found]
  exact Nat.zero_le _

variable (built : Built stop live loose start pages root regions free used)
include built

theorem Built.range {bound : U64}
    {fuel : Nat} (aligned : va.toNat % PGSIZE = 0) (boundAligned : bound.toNat % PGSIZE = 0)
    (boundInRange : bound.toNat ≤ VA_TOP) (enough : turns va bound .S_PAGE < fuel)
    (onWay : ∀ x, InRange va bound x → OnWay kernelWays x .S_PAGE) :
    YieldsOr (mapRangeFrom root bound attr .S_PAGE none fuel va pa) pages
      (Exhausted start kernelTables) fun _ after => ∃ free used,
        Built stop live loose start after root (⟨va, bound, pa, attr, .S_PAGE⟩ :: regions) free used := by
  have maps := @Space.mapRangeFrom _ stop live loose none root bound attr .S_PAGE kernelWays _
    (by rintro _ ⟨⟩) (fun positive => absurd positive (by decide)) aboveLeaves_kernelWays
    boundAligned boundInRange fuel va pa pages free aligned enough built.space
    (fun x isIn => ⟨built.noLarger (isIn.walkable boundInRange) _, onWay x isIn⟩)
  have budget := built.budget
  refine maps.mono ?_ ?_
  · rintro _ after ⟨more, rest, grows, few, leaves⟩
    refine ⟨rest, used ++ more, grows.space, ?_, ?_, ?_, ?_⟩
    · rw [built.start_eq, grows.free_eq, List.append_assoc]
    · rw [List.length_append]
      omega
    · intro region isRegion
      rcases List.mem_cons.mp isRegion with rfl | isOld
      · rfl
      · exact built.small region isOld
    · intro x walkable
      rw [leaves x walkable, leafIn, built.leaves x walkable]
      rfl
  · rintro fault ⟨isPanic, few⟩
    refine ⟨isPanic, ?_⟩
    rw [built.start_eq, List.length_append]
    omega

theorem Built.addRegion (aligned : va.toNat % PGSIZE = 0) (paAligned : pa.toNat % PGSIZE = 0)
    (below : va.toNat + size.toNat ≤ VA_TOP) (paBelow : pa.toNat + size.toNat ≤ PHY_TOP)
    (onWay : ∀ x, InRange va (rangeEnd va size .S_PAGE) x → OnWay kernelWays x .S_PAGE) :
    YieldsOr (svmmap root va pa size attr none) pages (Exhausted start kernelTables)
      fun _ after => ∃ free used, Built stop live loose start after root
        (smallRegion va pa size attr :: regions) free used := by
  rcases toNat_rangeEnd below .S_PAGE with ⟨_, endAligned, endBelow⟩
  rw [Vm.svmmap, doVmmap_eq aligned paAligned below paBelow]
  exact built.range aligned endAligned endBelow (turns_lt _ _ _) onWay

end

/-! ## Where the regions are -/

namespace Layout

variable (layout : Layout)

def dataStart : Nat := alignUp layout.erodata.toNat PGSIZE

def memoryStart : Nat := alignUp layout.stop.toNat PGSIZE

def largeStart : Nat := alignUp layout.memoryStart MPGSIZE

structure Ordered (trampoline brodata dataStart memoryStart largeStart : Nat) : Prop where
  trampoline_mod : trampoline % 4096 = 0
  dataStart_mod : dataStart % 4096 = 0
  memoryStart_mod : memoryStart % 4096 = 0
  largeStart_mod : largeStart % 2097152 = 0
  le_trampoline : 0x80000000 ≤ trampoline
  brodata_eq : brodata = trampoline + 4096
  le_dataStart : brodata ≤ dataStart
  le_memoryStart : dataStart ≤ memoryStart
  le_largeStart : memoryStart ≤ largeStart
  largeStart_le : largeStart ≤ 0xA0000000

theorem Ordered.chain {trampoline brodata dataStart memoryStart largeStart : Nat}
    (order : Ordered trampoline brodata dataStart memoryStart largeStart) :
    0x80000000 ≤ trampoline ∧ brodata = trampoline + 4096 ∧ brodata ≤ dataStart ∧
      dataStart ≤ memoryStart ∧ memoryStart ≤ largeStart ∧ largeStart ≤ 0xA0000000 :=
  ⟨order.le_trampoline, order.brodata_eq, order.le_dataStart, order.le_memoryStart,
    order.le_largeStart, order.largeStart_le⟩

theorem ordered : Ordered layout.trampoline.toNat layout.brodata.toNat layout.dataStart
    layout.memoryStart layout.largeStart := by
  have positive : 0 < PGSIZE := by decide
  have trampolineMod : layout.trampoline.toNat % PGSIZE = 0 := by
    rw [layout.trampoline_eq, alignUp_mod]
  have brodata : layout.brodata.toNat = layout.trampoline.toNat + PGSIZE := by
    have nonempty := layout.trampoline_pos
    have fits := layout.trampoline_le
    rw [layout.brodata_eq, alignUp]
    simp only [PGSIZE] at trampolineMod fits ⊢
    omega
  refine ⟨trampolineMod, alignUp_mod _ _, alignUp_mod _ _, alignUp_mod _ _, ?_, brodata, ?_, ?_,
    le_alignUp _ (by decide), ?_⟩
  · rw [layout.trampoline_eq]
    exact Nat.le_trans layout.kbase_le (le_alignUp _ positive)
  · exact Nat.le_trans layout.brodata_le (le_alignUp _ positive)
  · exact alignUp_le positive (Nat.le_trans layout.erodata_le (le_alignUp _ positive))
      (alignUp_mod _ _)
  · exact alignUp_le (by decide) (alignUp_le positive layout.stop_lt.le (by decide)) (by decide)

theorem toNat_alignUpWord {x : U64} (small : x.toNat ≤ PHY_TOP) :
    (alignUpWord x PGSIZE).toNat = alignUp x.toNat PGSIZE := by
  have below : alignUp x.toNat PGSIZE ≤ PHY_TOP := alignUp_le (by decide) small (by decide)
  rw [alignUpWord, BitVec.toNat_ofNat]
  exact Nat.mod_eq_of_lt (Nat.lt_of_le_of_lt below (by decide))

structure Sizes (layout : Layout) : Prop where
  kcodeSize : layout.kcodeSize.toNat = layout.trampoline.toNat - KBASE
  krodataSize : layout.krodataSize.toNat = layout.dataStart - layout.brodata.toNat
  kdata : layout.kdata.toNat = layout.dataStart
  kdataSize : layout.kdataSize.toNat = layout.memoryStart - layout.dataStart
  start : (alignUpWord (layout.kdata + layout.kdataSize) PGSIZE).toNat = layout.memoryStart

theorem sizes : Sizes layout := by
  have order := layout.ordered
  have erodataSmall : layout.erodata.toNat ≤ PHY_TOP :=
    Nat.le_trans layout.erodata_le layout.stop_lt.le
  have etextSmall : layout.etext.toNat ≤ PHY_TOP := by
    have first : layout.etext.toNat ≤ layout.trampoline.toNat := by
      rw [layout.trampoline_eq]
      exact le_alignUp _ (by decide)
    have second := layout.brodata_le
    have third := order.brodata_eq
    omega
  have kbase : (BitVec.ofNat 64 KBASE).toNat = KBASE := rfl
  have kcodeSize : layout.kcodeSize.toNat = layout.trampoline.toNat - KBASE := by
    rw [Symbols.kcodeSize, BitVec.toNat_sub_of_le, toNat_alignUpWord etextSmall,
      ← layout.trampoline_eq, kbase]
    rw [BitVec.le_def, toNat_alignUpWord etextSmall, ← layout.trampoline_eq]
    exact order.le_trampoline
  have krodataSize : layout.krodataSize.toNat = layout.dataStart - layout.brodata.toNat := by
    rw [Symbols.krodataSize, Symbols.krodata, BitVec.toNat_sub_of_le,
      toNat_alignUpWord erodataSmall]
    · rfl
    · rw [BitVec.le_def, toNat_alignUpWord erodataSmall]
      exact order.le_dataStart
  have bounds : layout.dataStart ≤ 0xA0000000 ∧ layout.memoryStart ≤ 0xA0000000 :=
    ⟨Nat.le_trans order.le_memoryStart (Nat.le_trans order.le_largeStart order.largeStart_le),
      Nat.le_trans order.le_largeStart order.largeStart_le⟩
  have kdata : layout.kdata.toNat = layout.dataStart := by
    have starts := order.le_dataStart
    rw [Symbols.kdata, Symbols.krodata, BitVec.toNat_add, krodataSize, Nat.add_sub_cancel' starts]
    exact Nat.mod_eq_of_lt (by omega)
  have kdataSize : layout.kdataSize.toNat = layout.memoryStart - layout.dataStart := by
    rw [Symbols.kdataSize, BitVec.toNat_sub_of_le, toNat_alignUpWord layout.stop_lt.le, kdata]
    · rfl
    · rw [BitVec.le_def, toNat_alignUpWord layout.stop_lt.le, kdata]
      exact order.le_memoryStart
  have sum : (layout.kdata + layout.kdataSize).toNat = layout.memoryStart := by
    have starts := order.le_memoryStart
    rw [BitVec.toNat_add, kdata, kdataSize, Nat.add_sub_cancel' starts]
    exact Nat.mod_eq_of_lt (by omega)
  refine ⟨kcodeSize, krodataSize, kdata, kdataSize, ?_⟩
  rw [toNat_alignUpWord (by rw [sum]; exact bounds.2), sum]
  apply Nat.le_antisymm
  · exact alignUp_le (by decide) (Nat.le_refl _) order.memoryStart_mod
  · exact le_alignUp _ (by decide)

end Layout

/-! ## The tables of the regions -/

theorem mem_kernelWays_of_few {path : List Nat}
    (isFew : path ∈ ({[0], [2], [255], [255, 511]} : Finset (List Nat))) : path ∈ kernelWays :=
  mem_union_left _ (mem_union_left _ isFew)

variable {x : U64}

theorem onWay_kernelWays {first second : Nat} (isFirst : vaLevel x 2 = first)
    (isSecond : vaLevel x 1 = second) (one : [first] ∈ kernelWays)
    (two : [first, second] ∈ kernelWays) : OnWay kernelWays x .S_PAGE := by
  intro length positive short
  have oneOrTwo : length = 1 ∨ length = 2 := by
    rw [show Granularity.S_PAGE.level = 0 from rfl] at short
    omega
  rcases oneOrTwo with rfl | rfl
  · rw [indices, isFirst]
    exact one
  · rw [indices, isFirst, isSecond]
    exact two

theorem onWay_memory (above : 0x80000000 ≤ x.toNat) (below : x.toNat < 0xA0000000) :
    OnWay kernelWays x .S_PAGE := by
  have isFirst : vaLevel x 2 = 2 := by
    rw [vaLevel_eq, PGSIZE]
    omega
  refine onWay_kernelWays isFirst rfl (mem_kernelWays_of_few (by decide)) ?_
  refine mem_union_right _ (mem_image_of_mem _ (mem_range.mpr ?_))
  rw [vaLevel_eq, PGSIZE]
  omega

theorem onWay_device (below : x.toNat < 0x40000000)
    (second : x.toNat / 0x200000 ∈ ({0, 16, 96, 97, 98, 128} : Finset Nat)) :
    OnWay kernelWays x .S_PAGE := by
  have isFirst : vaLevel x 2 = 0 := by
    rw [vaLevel_eq, PGSIZE]
    omega
  have isSecond : vaLevel x 1 = x.toNat / 0x200000 := by
    rw [vaLevel_eq, PGSIZE]
    omega
  refine onWay_kernelWays isFirst isSecond (mem_kernelWays_of_few (by decide)) ?_
  exact mem_union_left _ (mem_union_right _ (mem_image_of_mem _ second))

theorem onWay_trampoline (above : 0x3FFFFFF000 ≤ x.toNat) (below : x.toNat < 0x4000000000) :
    OnWay kernelWays x .S_PAGE := by
  have isFirst : vaLevel x 2 = 255 := by
    rw [vaLevel_eq, PGSIZE]
    omega
  have isSecond : vaLevel x 1 = 511 := by
    rw [vaLevel_eq, PGSIZE]
    omega
  exact onWay_kernelWays isFirst isSecond (mem_kernelWays_of_few (by decide))
    (mem_kernelWays_of_few (by decide))

/-! ## The run of `init_page` -/

def deviceRegions : List Region :=
  [smallRegion (BitVec.ofNat 64 VIRIO) (BitVec.ofNat 64 VIRIO) (BitVec.ofNat 64 VIRIO_SIZE)
      (PTE_R ||| PTE_W),
    smallRegion (BitVec.ofNat 64 UART0) (BitVec.ofNat 64 UART0) (BitVec.ofNat 64 UART0_SIZE)
      (PTE_R ||| PTE_W),
    smallRegion (BitVec.ofNat 64 PLIC) (BitVec.ofNat 64 PLIC) (BitVec.ofNat 64 PLIC_SIZE)
      (PTE_R ||| PTE_W),
    smallRegion (BitVec.ofNat 64 CLINT) (BitVec.ofNat 64 CLINT) (BitVec.ofNat 64 CLINT_SIZE)
      (PTE_R ||| PTE_W),
    smallRegion (BitVec.ofNat 64 POWER) (BitVec.ofNat 64 POWER) (BitVec.ofNat 64 POWER_SIZE)
      (PTE_R ||| PTE_W)]

namespace Layout

variable (layout : Layout)

def kernelRegions : List Region :=
  [smallRegion layout.kdata layout.kdata layout.kdataSize (PTE_R ||| PTE_W),
    smallRegion layout.krodata layout.krodata layout.krodataSize PTE_R,
    smallRegion (BitVec.ofNat 64 TRAMPOLINE) layout.trampoline (BitVec.ofNat 64 PGSIZE)
      (PTE_R ||| PTE_X),
    smallRegion layout.trampoline layout.trampoline (BitVec.ofNat 64 PGSIZE) (PTE_R ||| PTE_X),
    smallRegion (BitVec.ofNat 64 KBASE) (BitVec.ofNat 64 KBASE) layout.kcodeSize
      (PTE_R ||| PTE_X)]

def smallMemory : Region :=
  ⟨BitVec.ofNat 64 layout.memoryStart, BitVec.ofNat 64 layout.largeStart,
    BitVec.ofNat 64 layout.memoryStart, PTE_R ||| PTE_W, .S_PAGE⟩

def largeMemory : Region :=
  ⟨BitVec.ofNat 64 layout.largeStart, BitVec.ofNat 64 PHY_TOP, BitVec.ofNat 64 layout.largeStart,
    PTE_R ||| PTE_W, .M_PAGE⟩

def regions : List Region :=
  layout.largeMemory :: layout.smallMemory :: (layout.kernelRegions ++ deviceRegions)

end Layout

section
variable {stop : Nat} {live : Task → Prop} {loose : Nat → Prop} {start free used : List Nat}
  {pages : Pages Task Words} {root : Nat} {regions : List Region}

theorem onWay_devices {base size : U64}
    (devices : Icc (base.toNat / 0x200000) (((rangeEnd base size .S_PAGE).toNat - 1) / 0x200000) ⊆
      {0, 16, 96, 97, 98, 128}) {x : U64}
    (isIn : InRange base (rangeEnd base size .S_PAGE) x) : OnWay kernelWays x .S_PAGE := by
  rcases isIn with ⟨above, below⟩
  have atLeast : base.toNat / 0x200000 ≤ x.toNat / 0x200000 := Nat.div_le_div_right above
  have atMost : x.toNat / 0x200000 ≤ ((rangeEnd base size .S_PAGE).toNat - 1) / 0x200000 :=
    Nat.div_le_div_right (by omega)
  have device := devices (mem_Icc.mpr ⟨atLeast, atMost⟩)
  have small : ∀ n ∈ ({0, 16, 96, 97, 98, 128} : Finset Nat), n < 512 := by decide
  have below := small _ device
  exact onWay_device (by omega) device

theorem Built.mapDevices (built : Built stop live loose start pages root [] free used) :
    YieldsOr (mapDevices root) pages (Exhausted start kernelTables) fun _ after =>
      ∃ free used, Built stop live loose start after root deviceRegions free used := by
  rw [Vm.mapDevices]
  refine (built.addRegion (by decide) (by decide) (by decide) (by decide) fun x =>
    onWay_devices (by decide)).bind ?_
  rintro _ pages ⟨free, used, built⟩
  refine (built.addRegion (by decide) (by decide) (by decide) (by decide) fun x =>
    onWay_devices (by decide)).bind ?_
  rintro _ pages ⟨free, used, built⟩
  refine (built.addRegion (by decide) (by decide) (by decide) (by decide) fun x =>
    onWay_devices (by decide)).bind ?_
  rintro _ pages ⟨free, used, built⟩
  refine (built.addRegion (by decide) (by decide) (by decide) (by decide) fun x =>
    onWay_devices (by decide)).bind ?_
  rintro _ pages ⟨free, used, built⟩
  exact built.addRegion (by decide) (by decide) (by decide) (by decide) fun x =>
    onWay_devices (by decide)

theorem onWay_inMemory {va bound : U64} (above : 0x80000000 ≤ va.toNat)
    (below : bound.toNat ≤ 0xA0000000) {x : U64} (isIn : InRange va bound x) :
    OnWay kernelWays x .S_PAGE :=
  onWay_memory (Nat.le_trans above isIn.1) (Nat.lt_of_lt_of_le isIn.2 below)

theorem toNat_rangeEnd_small {va size : U64} {bound : Nat} (sum : va.toNat + size.toNat = bound)
    (aligned : bound % 4096 = 0) (below : bound ≤ VA_TOP) :
    (rangeEnd va size .S_PAGE).toNat = bound := by
  rw [(toNat_rangeEnd (sum ▸ below) .S_PAGE).1, sum]
  apply Nat.le_antisymm
  · exact alignUp_le (by decide) (Nat.le_refl _) aligned
  · exact le_alignUp _ (by decide)

structure Layout.Ends (layout : Layout) : Prop where
  code : (rangeEnd (BitVec.ofNat 64 KBASE) layout.kcodeSize .S_PAGE).toNat =
    layout.trampoline.toNat
  trampoline : (rangeEnd layout.trampoline (BitVec.ofNat 64 PGSIZE) .S_PAGE).toNat =
    layout.brodata.toNat
  rodata : (rangeEnd layout.krodata layout.krodataSize .S_PAGE).toNat = layout.dataStart
  data : (rangeEnd layout.kdata layout.kdataSize .S_PAGE).toNat = layout.memoryStart

section
variable (layout : Layout)

theorem Layout.ends : layout.Ends := by
  have order := layout.ordered
  have sizes := layout.sizes
  have kbase : (BitVec.ofNat 64 KBASE).toNat = 0x80000000 := rfl
  have pgsize : (BitVec.ofNat 64 PGSIZE).toNat = 4096 := rfl
  have krodata : layout.krodata.toNat = layout.brodata.toNat := rfl
  have kbaseValue : KBASE = 0x80000000 := rfl
  have top : VA_TOP = 0x4000000000 := rfl
  have chain := order.chain
  have trampolineMod := order.trampoline_mod
  constructor
  · exact toNat_rangeEnd_small (by rw [kbase, sizes.kcodeSize]; omega) trampolineMod (by omega)
  · exact toNat_rangeEnd_small (by rw [pgsize]; omega) (by omega) (by omega)
  · exact toNat_rangeEnd_small (by rw [krodata, sizes.krodataSize]; omega) order.dataStart_mod
      (by omega)
  · exact toNat_rangeEnd_small (by rw [sizes.kdata, sizes.kdataSize]; omega)
      order.memoryStart_mod (by omega)

theorem Built.mapSections (built : Built stop live loose start pages root deviceRegions free used) :
    YieldsOr (mapSections layout.toSymbols root) pages (Exhausted start kernelTables) fun _ after =>
      ∃ free used, Built stop live loose start after root (layout.kernelRegions ++ deviceRegions)
        free used := by
  have order := layout.ordered
  have sizes := layout.sizes
  have ends := layout.ends
  have kbase : (BitVec.ofNat 64 KBASE).toNat = 0x80000000 := rfl
  have pgsize : (BitVec.ofNat 64 PGSIZE).toNat = 4096 := rfl
  have krodata : layout.krodata.toNat = layout.brodata.toNat := rfl
  have page : PGSIZE = 4096 := rfl
  have kbaseValue : KBASE = 0x80000000 := rfl
  have top : VA_TOP = 0x4000000000 := rfl
  have phyTop : PHY_TOP = 0xA0000000 := rfl
  have trampolineTop : (BitVec.ofNat 64 TRAMPOLINE).toNat = 0x3FFFFFF000 := rfl
  have chain := order.chain
  have trampolineMod := order.trampoline_mod
  have brodataMod : layout.krodata.toNat % PGSIZE = 0 := by
    rw [krodata, page]
    omega
  have dataMod : layout.kdata.toNat % PGSIZE = 0 := by
    rw [sizes.kdata]
    exact order.dataStart_mod
  rw [Vm.mapSections]
  refine (built.addRegion (by decide) (by decide) (by rw [kbase, sizes.kcodeSize]; omega)
    (by rw [kbase, sizes.kcodeSize]; omega)
    fun x => onWay_inMemory (by decide) (by rw [ends.code]; omega)).bind ?_
  rintro _ pages ⟨free, used, built⟩
  refine (built.addRegion trampolineMod trampolineMod (by omega) (by omega)
    fun x => onWay_inMemory (by omega) (by rw [ends.trampoline]; omega)).bind ?_
  rintro _ pages ⟨free, used, built⟩
  refine (built.addRegion (by decide) trampolineMod (by decide) (by omega) ?_).bind ?_
  · rintro x ⟨above, below⟩
    exact onWay_trampoline above below
  rintro _ pages ⟨free, used, built⟩
  refine (built.addRegion brodataMod brodataMod
    (by rw [krodata, sizes.krodataSize]; omega) (by rw [krodata, sizes.krodataSize]; omega)
    fun x => onWay_inMemory (by rw [krodata]; omega) (by rw [ends.rodata]; omega)).bind ?_
  rintro _ pages ⟨free, used, built⟩
  exact built.addRegion dataMod dataMod
    (by rw [sizes.kdata, sizes.kdataSize]; omega) (by rw [sizes.kdata, sizes.kdataSize]; omega)
    fun x => onWay_inMemory (by rw [sizes.kdata]; omega) (by rw [ends.data]; omega)

theorem Layout.toNat_starts : (BitVec.ofNat 64 layout.memoryStart).toNat = layout.memoryStart ∧
      (BitVec.ofNat 64 layout.largeStart).toNat = layout.largeStart := by
  have order := layout.ordered
  have chain := order.chain
  rw [BitVec.toNat_ofNat, BitVec.toNat_ofNat]
  exact ⟨Nat.mod_eq_of_lt (by omega), Nat.mod_eq_of_lt (by omega)⟩

theorem mapBound_eq : mapBound = 0xA0000000 := by decide

theorem Layout.more_small {va : Nat} (atLeast : layout.memoryStart ≤ va)
    (atMost : va ≤ layout.largeStart) :
    (va % MPGSIZE != 0 && decide (va < mapBound)) = true ↔ va < layout.largeStart := by
  have le5 := layout.ordered.largeStart_le
  have noEarlier : va % MPGSIZE = 0 → layout.largeStart ≤ va :=
    fun aligned => alignUp_le (by decide) atLeast aligned
  have isAligned : layout.largeStart % MPGSIZE = 0 := alignUp_mod _ _
  simp only [Bool.and_eq_true, bne_iff_ne, decide_eq_true_eq, mapBound_eq]
  constructor
  · rintro ⟨notAligned, _⟩
    refine Nat.lt_of_le_of_ne atMost ?_
    rintro rfl
    exact notAligned isAligned
  · intro isBelow
    exact ⟨fun aligned => absurd (noEarlier aligned) (by omega), by omega⟩

theorem Layout.more_large {va : Nat} (atLeast : layout.largeStart ≤ va) (atMost : va ≤ 0xA0000000) :
    (va % GPGSIZE != 0 && decide (va < mapBound)) = true ↔ va < 0xA0000000 := by
  have order := layout.ordered
  have chain := order.chain
  have gigabyte : GPGSIZE = 1073741824 := rfl
  simp only [Bool.and_eq_true, bne_iff_ne, decide_eq_true_eq, mapBound_eq, gigabyte]
  omega

theorem turns_lt_npage {va bound : U64} (above : 0x80000000 ≤ va.toNat)
    (below : bound.toNat ≤ 0xA0000000) (gra : Granularity) : turns va bound gra < NPAGE + 1 := by
  have pages : NPAGE = 131072 := rfl
  rw [turns]
  rcases gra.delta_cases with is | is | is <;> rw [is] <;> omega

theorem Built.mapSmall
    (built : Built stop live loose start pages root (layout.kernelRegions ++ deviceRegions) free used) :
    YieldsOr (identityFrom (svmmap root · · · · none) PGSIZE
      (fun va => va.toNat % MPGSIZE != 0 && decide (va.toNat < mapBound)) (NPAGE + 1)
      (BitVec.ofNat 64 layout.memoryStart)) pages (Exhausted start kernelTables) fun va after =>
        va = BitVec.ofNat 64 layout.largeStart ∧ ∃ free used, Built stop live loose start after root
          (layout.smallMemory :: (layout.kernelRegions ++ deviceRegions)) free used := by
  have order := layout.ordered
  rcases layout.toNat_starts with ⟨memoryStart, largeStart⟩
  have chain := order.chain
  have above : 0x80000000 ≤ (BitVec.ofNat 64 layout.memoryStart).toNat := by omega
  have below : (BitVec.ofNat 64 layout.largeStart).toNat ≤ 0xA0000000 := by omega
  have startAligned : (BitVec.ofNat 64 layout.memoryStart).toNat % PGSIZE = 0 := by
    rw [memoryStart]
    exact order.memoryStart_mod
  have boundAligned : (BitVec.ofNat 64 layout.largeStart).toNat % PGSIZE = 0 := by
    rw [largeStart]
    exact Granularity.M_PAGE.mod_of_mod_delta order.largeStart_mod
  have isMore : ∀ va : U64, layout.memoryStart ≤ va.toNat →
      va.toNat ≤ (BitVec.ofNat 64 layout.largeStart).toNat →
      ((va.toNat % MPGSIZE != 0 && decide (va.toNat < mapBound)) = true ↔
        va.toNat < (BitVec.ofNat 64 layout.largeStart).toNat) := by
    rw [largeStart]
    exact fun va => layout.more_small
  rw [identityFrom_eq (svmmap root · · · · none) PGSIZE (fun _ _ _ _ => rfl) rfl boundAligned below
    isMore _ _ startAligned memoryStart.ge (by omega)]
  refine (built.range startAligned boundAligned (Nat.le_trans below (by decide))
    (turns_lt_npage above below .S_PAGE) fun x => onWay_inMemory above below).bind ?_
  intro _ after isBuilt
  exact yieldsOr_pure ⟨rfl, isBuilt⟩

theorem sound_smallRegion {va pa size : U64} {attr : BitVec 16} (aligned : va.toNat % 4096 = 0)
    (paAligned : pa.toNat % 4096 = 0)
    (small : pa.toNat + ((rangeEnd va size .S_PAGE).toNat - va.toNat) < 2 ^ 56)
    (isFlags : IsFlags attr) (readable : attr.getLsbD 1 = true) :
    (smallRegion va pa size attr).Sound :=
  ⟨aligned, paAligned, small, isFlags, readable⟩

theorem sound_deviceRegions : ∀ region ∈ deviceRegions, region.Sound := by
  intro region isRegion
  simp only [deviceRegions, List.mem_cons, List.not_mem_nil, or_false] at isRegion
  rcases isRegion with rfl | rfl | rfl | rfl | rfl <;>
    exact ⟨by decide, by decide, by decide, by decide, by decide⟩

theorem sound_kernelRegions : ∀ region ∈ layout.kernelRegions, region.Sound := by
  have order := layout.ordered
  have sizes := layout.sizes
  have ends := layout.ends
  have krodata : layout.krodata.toNat = layout.brodata.toNat := rfl
  have chain := order.chain
  have trampolineMod := order.trampoline_mod
  have rodataMod : layout.krodata.toNat % 4096 = 0 := by omega
  have dataMod : layout.kdata.toNat % 4096 = 0 := by
    rw [sizes.kdata]
    exact order.dataStart_mod
  have kbase : (BitVec.ofNat 64 KBASE).toNat = 0x80000000 := rfl
  have onePage : (rangeEnd (BitVec.ofNat 64 TRAMPOLINE) (BitVec.ofNat 64 PGSIZE) .S_PAGE).toNat -
    (BitVec.ofNat 64 TRAMPOLINE).toNat = 4096 := by decide
  intro region isRegion
  simp only [Layout.kernelRegions, List.mem_cons, List.not_mem_nil, or_false] at isRegion
  rcases isRegion with rfl | rfl | rfl | rfl | rfl
  · refine sound_smallRegion dataMod dataMod ?_ (by decide) (by decide)
    rw [ends.data, sizes.kdata]
    omega
  · refine sound_smallRegion rodataMod rodataMod ?_ (by decide) (by decide)
    rw [ends.rodata, krodata]
    omega
  · refine sound_smallRegion (by decide) trampolineMod ?_ (by decide) (by decide)
    rw [onePage]
    omega
  · refine sound_smallRegion trampolineMod trampolineMod ?_ (by decide) (by decide)
    rw [ends.trampoline]
    omega
  · refine sound_smallRegion (by decide) (by decide) ?_ (by decide) (by decide)
    rw [ends.code, kbase]
    omega

theorem sound_memoryRegions : layout.smallMemory.Sound ∧ layout.largeMemory.Sound := by
  have order := layout.ordered
  rcases layout.toNat_starts with ⟨memoryStart, largeStart⟩
  have chain := order.chain
  have startAligned : (BitVec.ofNat 64 layout.memoryStart).toNat % Granularity.S_PAGE.delta = 0 := by
    rw [memoryStart]
    exact order.memoryStart_mod
  have largeAligned : (BitVec.ofNat 64 layout.largeStart).toNat % Granularity.M_PAGE.delta = 0 := by
    rw [largeStart]
    exact order.largeStart_mod
  have isFlags : IsFlags (PTE_R ||| PTE_W) := by decide
  have readable : (PTE_R ||| PTE_W).getLsbD 1 = true := by decide
  refine ⟨⟨startAligned, startAligned, ?_, isFlags, readable⟩,
    ⟨largeAligned, largeAligned, ?_, isFlags, readable⟩⟩
  · simp only [Layout.smallMemory, memoryStart, largeStart]
    omega
  · have top : (BitVec.ofNat 64 PHY_TOP).toNat = 0xA0000000 := rfl
    simp only [Layout.largeMemory, largeStart, top]
    omega

end

omit [DecidableEq Task] in
theorem Built.toMake_memory {layout : Layout} (built : Built stop live loose start pages root
      (layout.smallMemory :: (layout.kernelRegions ++ deviceRegions)) free used) :
    toMake pages root {[2]} = 0 := by
  have order := layout.ordered
  have chain := order.chain
  have sound : ∀ region ∈ layout.smallMemory :: (layout.kernelRegions ++ deviceRegions),
      region.Sound := by
    intro region isRegion
    rcases List.mem_cons.mp isRegion with rfl | isRegion
    · exact (sound_memoryRegions layout).1
    · rcases List.mem_append.mp isRegion with isKernel | isDevice
      · exact sound_kernelRegions layout region isKernel
      · exact sound_deviceRegions region isDevice
  have isTrampoline : (smallRegion layout.trampoline layout.trampoline (BitVec.ofNat 64 PGSIZE)
      (PTE_R ||| PTE_X)).Has layout.trampoline := by
    refine ⟨Nat.le_refl _, ?_⟩
    simp only [smallRegion, layout.ends.trampoline]
    omega
  have isRegion : smallRegion layout.trampoline layout.trampoline (BitVec.ofNat 64 PGSIZE)
      (PTE_R ||| PTE_X) ∈ layout.smallMemory :: (layout.kernelRegions ++ deviceRegions) := by
    simp [Layout.kernelRegions]
  rcases leafIn_of_mem sound isRegion isTrampoline with ⟨⟨pte, below⟩, found⟩
  have short := length_leafIn built.small found
  rw [← built.leaves layout.trampoline (by omega)] at found
  have first : vaLevel layout.trampoline 2 = 2 := by
    rw [vaLevel_eq, PGSIZE]
    omega
  have shorter : below.length < 2 := by omega
  rcases Radix.follow_of_lookup found shorter with ⟨next, reaches⟩
  rw [first] at reaches
  rw [toMake, card_eq_zero, eq_empty_iff_forall_notMem]
  intro path isMissing
  rw [Radix.mem_missing, mem_singleton] at isMissing
  rw [isMissing.1, reaches] at isMissing
  cases isMissing.2

section
variable (layout : Layout)
include layout

theorem Built.mapLarge
    (built : Built stop live loose start pages root (layout.smallMemory :: (layout.kernelRegions ++
      deviceRegions)) free used) :
    YieldsOr (identityFrom (mvmmap root) MPGSIZE
      (fun va => va.toNat % GPGSIZE != 0 && decide (va.toNat < mapBound)) (NPAGE + 1)
      (BitVec.ofNat 64 layout.largeStart)) pages (Exhausted start kernelTables) fun va after =>
        va = BitVec.ofNat 64 PHY_TOP ∧ ∃ rest, Space stop live loose after rest root ∧
          ∀ x : U64, x.toNat < 2 ^ 39 → leafOf after root (indices x) =
            leafIn (layout.largeMemory :: layout.smallMemory ::
              (layout.kernelRegions ++ deviceRegions)) x := by
  have order := layout.ordered
  rcases layout.toNat_starts with ⟨memoryStart, largeStart⟩
  have chain := order.chain
  have above : 0x80000000 ≤ (BitVec.ofNat 64 layout.largeStart).toNat := by omega
  have top : (BitVec.ofNat 64 PHY_TOP).toNat = 0xA0000000 := rfl
  have startAligned : (BitVec.ofNat 64 layout.largeStart).toNat % Granularity.M_PAGE.delta = 0 := by
    rw [largeStart]
    exact order.largeStart_mod
  have isMore : ∀ va : U64, layout.largeStart ≤ va.toNat →
      va.toNat ≤ (BitVec.ofNat 64 PHY_TOP).toNat →
      ((va.toNat % GPGSIZE != 0 && decide (va.toNat < mapBound)) = true ↔
        va.toNat < (BitVec.ofNat 64 PHY_TOP).toNat) := by
    rw [top]
    exact fun va => layout.more_large
  have noTable := built.toMake_memory
  have onWay : ∀ x, InRange (BitVec.ofNat 64 layout.largeStart) (BitVec.ofNat 64 PHY_TOP) x →
      OnWay {[2]} x .M_PAGE := by
    rintro x ⟨atLeast, atMost⟩ length positive short
    have one : length = 1 := by
      rw [show Granularity.M_PAGE.level = 1 from rfl] at short
      omega
    have first : vaLevel x 2 = 2 := by
      rw [vaLevel_eq, PGSIZE]
      omega
    rw [one, indices, first]
    exact mem_singleton_self _
  have maps := @Space.mapRangeFrom _ stop live loose none root (BitVec.ofNat 64 PHY_TOP)
    (PTE_R ||| PTE_W) .M_PAGE {[2]} _ (by rintro _ ⟨⟩) (fun _ => by decide)
    (by intro path isPath; rw [mem_singleton.mp isPath]; decide) (by decide) (by decide)
    (NPAGE + 1) (BitVec.ofNat 64 layout.largeStart) (BitVec.ofNat 64 layout.largeStart) pages free
    startAligned (turns_lt_npage above (by decide) .M_PAGE) built.space
    (fun x isIn => ⟨built.noLarger (isIn.walkable (by decide)) _, onWay x isIn⟩)
  rw [identityFrom_eq (mvmmap root) MPGSIZE (fun _ _ _ _ => rfl) rfl (by decide) (by decide) isMore
    _ _ startAligned largeStart.ge (by omega)]
  refine (maps.mono (fun _ _ => id) ?_).bind ?_
  · rintro fault ⟨_, few⟩
    rw [noTable] at few
    exact absurd few (Nat.not_lt_zero _)
  · rintro _ after ⟨_, rest, grows, _, leaves⟩
    refine yieldsOr_pure ⟨rfl, rest, grows.space, ?_⟩
    intro x walkable
    rw [leaves x walkable, leafIn, built.leaves x walkable]
    rfl

theorem Built.mapMemory
    (built : Built stop live loose start pages root (layout.kernelRegions ++ deviceRegions) free used) :
    YieldsOr (mapMemory layout.toSymbols root) pages (Exhausted start kernelTables) fun _ after =>
      ∃ rest, Space stop live loose after rest root ∧ ∀ x : U64, x.toNat < 2 ^ 39 →
        leafOf after root (indices x) = leafIn (layout.largeMemory :: layout.smallMemory ::
          (layout.kernelRegions ++ deviceRegions)) x := by
  have isStart : alignUpWord (layout.kdata + layout.kdataSize) PGSIZE =
      BitVec.ofNat 64 layout.memoryStart := by
    apply BitVec.eq_of_toNat_eq
    rw [layout.sizes.start, layout.toNat_starts.1]
  rw [Vm.mapMemory, isStart]
  refine (built.mapSmall layout).bind ?_
  rintro _ pages ⟨rfl, free, used, built⟩
  refine (built.mapLarge layout).bind ?_
  rintro _ pages ⟨rfl, mapped⟩
  -- The third loop has nothing to do.
  exact mapped

theorem sound_regions : ∀ region ∈ layout.regions, region.Sound := by
  intro region isRegion
  rcases List.mem_cons.mp isRegion with rfl | isRegion
  · exact (sound_memoryRegions layout).2
  · rcases List.mem_cons.mp isRegion with rfl | isRegion
    · exact (sound_memoryRegions layout).1
    · rcases List.mem_append.mp isRegion with isKernel | isDevice
      · exact sound_kernelRegions layout region isKernel
      · exact sound_deviceRegions region isDevice

theorem initPage_regions (pool : Pool stop live loose pages start) :
    YieldsOr (initPage layout.toSymbols) pages (Exhausted start kernelTables) fun root after =>
      ∃ rest, Space stop live loose after rest root ∧ ∀ x : U64, x.toNat < 2 ^ 39 →
        leafOf after root (indices x) = leafIn layout.regions x := by
  rw [initPage]
  refine ((pool.newSpace (by rintro _ ⟨⟩)).mono (fun _ _ => id) ?_).bind ?_
  · rintro fault ⟨isPanic, few⟩
    exact ⟨isPanic, Nat.lt_of_lt_of_le few (by decide)⟩
  · rintro root pages ⟨free, isFree, space, leaves, _⟩
    have built : Built stop live loose start pages root [] free [root] := by
      refine ⟨space, isFree, ?_, fun _ isRegion => absurd isRegion List.not_mem_nil,
        fun x _ => leaves _⟩
      rw [List.length_singleton, Nat.add_comm]
      exact Nat.lt_of_le_of_lt (card_filter_le _ _) card_kernelWays_lt
    refine built.mapDevices.bind ?_
    rintro _ pages ⟨free, used, built⟩
    refine (built.mapSections layout).bind ?_
    rintro _ pages ⟨free, used, built⟩
    refine (built.mapMemory layout).bind ?_
    rintro _ pages mapped
    exact yieldsOr_pure mapped

end
end
end Tnix.Vm
