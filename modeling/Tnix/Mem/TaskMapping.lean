import Mathlib.Algebra.BigOperators.Group.Finset.Piecewise
import Mathlib.Algebra.Order.BigOperators.Group.Finset
import Tnix.Mem.TaskMemory

/-! # What mapping into a task does

The functions on the memory of a task change no other page than those of its table. -/

namespace Tnix.Vm

open Function Mem Program
variable {Task : Type} {stop : Nat} {live : Task → Prop} {state after : VmState Task}
  {free used rest : List Nat} {root : Nat}

theorem pageOf_eq {address : U64} {p : Nat} (low : PHY_MEMORY + p * PGSIZE ≤ address.toNat)
    (high : address.toNat < PHY_MEMORY + (p + 1) * PGSIZE) : pageOf address = p := by
  have base : (BitVec.ofNat 64 PHY_MEMORY).toNat = PHY_MEMORY := rfl
  have after : BitVec.ofNat 64 PHY_MEMORY ≤ address := by
    rw [BitVec.le_def, base]
    omega
  rw [pageOf, BitVec.toNat_sub_of_le after, base]
  simp only [PHY_MEMORY, PGSIZE] at low high ⊢
  omega

theorem pageOf_paddr {p : Nat} (inMemory : p < NPAGE) : pageOf (paddr p) = p := by
  have address := toNat_paddr inMemory
  refine pageOf_eq (Nat.le_of_eq address.symm) ?_
  rw [address]
  simp only [PGSIZE]
  omega

/-! ## Objects of slots -/

def slotPage (mem : Memory Task SlotName) (p : Nat) : Prop :=
  ∃ name cur, cur < kernelSlots.num name ∧ (mem.slots name cur).slot = some p

def slotsInUse (mem : Memory Task SlotName) (name : SlotName) : Nat :=
  ∑ cur ∈ Finset.range (kernelSlots.num name), (mem.slots name cur).refc.toNat

def slotsMax (name : SlotName) : Nat := kernelSlots.num name * kernelSlots.chunks name

variable {mem : Memory Task SlotName} {name : SlotName} {lists lists' : Mem.Lists Task}

theorem slotsInUse_le (slotted : Slotted kernelSlots stop mem lists) :
    slotsInUse mem name ≤ slotsMax name := by
  have bound := Finset.sum_le_card_nsmul _ _ (kernelSlots.chunks name) fun cur inArray =>
    slotted.refc_le (Finset.mem_range.mp inArray)
  rwa [Finset.card_range] at bound

theorem slotsInUse_allocated [DecidableEq Task] {after : Memory Task SlotName} {obj : Obj}
    {free' : List Nat}
    (done : Allocated kernelSlots stop mem lists free name obj after lists' free') :
    slotsInUse after name = slotsInUse mem name + 1 := by
  rcases done.refc with ⟨cur, inArray, counts⟩
  rw [slotsInUse, Finset.sum_congr rfl fun cur' _ => counts cur', Finset.sum_add_distrib,
    Finset.sum_ite_eq', if_pos (Finset.mem_range.mpr inArray), slotsInUse]

/-! ## The free pages -/

/-- The free pages, in their order, and the slots. The `live` tasks have a list of pages. -/
def Stocked (stop : Nat) (live : Task → Prop) (state : VmState Task) (free : List Nat) : Prop :=
  ∃ lists : Mem.Lists Task, Holds stop state.mem.pages lists free ∧
    Slotted kernelSlots stop state.mem lists ∧ ∀ t, live t → (lists (some t)).isSome

section
variable (stocked : Stocked stop live state free)
include stocked

theorem Stocked.pool : Pool stop live (slotPage state.mem) state.pages free := by
  rcases stocked with ⟨lists, holds, slotted, lives⟩
  refine ⟨lists, ⟨holds.threaded, holds.isFree, holds.inuse, holds.usable⟩, lives, ?_⟩
  rintro p ⟨name, cur, inArray, isPage⟩
  exact (slotted.loose inArray isPage).off

theorem Stocked.setPages {pages : Pages Task Words}
    (pool : Pool stop live (slotPage state.mem) pages rest) :
    Stocked stop live (state.setPages pages) rest := by
  rcases stocked with ⟨lists, _, slotted, _⟩
  rcases pool with ⟨lists', holds, lives, offs⟩
  refine ⟨lists', ⟨holds.threaded, holds.isFree, holds.inuse, holds.usable⟩, ?_, lives⟩
  refine (@Slotted.frame _ _ _ _ _ _ slotted ⟨pages.links, pages.inuse, state.mem.pages.content⟩
    lists' (fun _ _ => rfl) ?_).1
  intro name cur q inArray isPage
  have loose := slotted.loose inArray isPage
  exact ⟨loose.inMemory, loose.notReserved, offs q ⟨name, cur, inArray, isPage⟩⟩

theorem Stocked.congr (same : after.mem = state.mem) : Stocked stop live after free := by
  rcases stocked with ⟨lists, holds, slotted, lives⟩
  rw [Stocked, same]
  exact ⟨lists, holds, slotted, lives⟩

end

/-- The table of a task has grown by pages that were free, and so may have the slots. -/
structure Extends (stop : Nat) (live : Task → Prop) (root : Nat) (state after : VmState Task)
    (free used rest : List Nat) : Prop
    extends Grows stop live (slotPage after.mem) root state.pages after.pages free used rest where
  stocked : Stocked stop live after rest

theorem Extends.trans {final : VmState Task} {used' rest' : List Nat}
    (first : Extends stop live root state after free used rest)
    (second : Extends stop live root after final rest used' rest') :
    Extends stop live root state final free (used ++ used') rest' :=
  ⟨first.toGrows.trans second.toGrows, second.stocked⟩

def SameTable (root : Nat) (state after : VmState Task) : Prop :=
  ∀ p, InTable state.pages root p → after.words p = state.words p

namespace SameTable

variable (same : SameTable root state after)
include same

theorem leafOf_eq {path : List Nat} (short : path.length ≤ 3) :
    leafOf after.pages root path = leafOf state.pages root path :=
  (Radix.agreeAlong_of_unreached same short).lookup_eq

theorem inTable_iff {p : Nat} : InTable after.pages root p ↔ InTable state.pages root p :=
  Radix.reaches_of_unreached same

theorem space {loose loose' : Nat → Prop} (space : Space stop live loose state.pages free root)
    (pool : Pool stop live loose' after.pages rest) (fewer : rest ⊆ free) :
    Space stop live loose' after.pages rest root := by
  refine ⟨pool, space.tree.of_unreached same, fun inTable => ?_⟩
  have inUse := space.inUse (same.inTable_iff.mp inTable)
  exact ⟨inUse.1, fun isFree => inUse.2 (fewer isFree)⟩

end SameTable

namespace Extends

theorem of_same (space : Space stop live (slotPage state.mem) state.pages free root)
    (stocked : Stocked stop live after rest) (isFree : free = used ++ rest)
    (same : SameTable root state after) (unchanged : ∀ p, p ∉ used → after.words p = state.words p) :
    Extends stop live root state after free used rest := by
  refine ⟨⟨same.space space stocked.pool ?_, isFree, fun inTable => ?_, fun _ => unchanged _⟩,
    stocked⟩
  · rw [isFree]
    exact List.subset_append_right used rest
  · exact .inl (same.inTable_iff.mp inTable)

theorem of_grows (stocked : Stocked stop live state free) {pages : Pages Task Words}
    (grows : Grows stop live (slotPage state.mem) root state.pages pages free used rest) :
    Extends stop live root state (state.setPages pages) free used rest :=
  ⟨grows, stocked.setPages grows.space.pool⟩

variable (extension : Extends stop live root state after free used rest)
include extension

theorem setWords {page : Nat}
    (isUsed : page ∈ used) (notIn : ¬ InTable after.pages root page) (words : Words) :
    Extends stop live root state { after with words := update after.words page words }
      free used rest := by
  have same : SameTable root after
      { after with words := update after.words page words } := by
    intro p inTable
    apply update_of_ne
    rintro rfl
    exact notIn inTable
  have stocked : Stocked stop live
      { after with words := update after.words page words } rest :=
    extension.stocked.congr rfl
  refine ⟨⟨same.space extension.space stocked.pool (List.Subset.refl rest), extension.free_eq,
    fun inTable => extension.inTable (same.inTable_iff.mp inTable), ?_⟩, stocked⟩
  intro p notInTable notUsed
  have different : p ≠ page := by
    rintro rfl
    exact notUsed isUsed
  exact (update_of_ne different _ _).trans (extension.frame notInTable notUsed)

theorem setMm [DecidableEq Task] (t : Task) (mm : TaskMm) :
    Extends stop live root state (after.setMm t mm) free used rest :=
  ⟨extension.toGrows, extension.stocked⟩

end Extends

/-- Why a function stops: there are not enough free pages, or not enough vmas. -/
inductive Stops (free : List Nat) (pages : Nat) (mem : Memory Task SlotName) (objects : Nat) :
    MemFault → Prop
  | memory (few : free.length < pages) :
      Stops free pages mem objects (.panic "alloc_page: memory exhausted")
  | slots (full : slotsMax .vmaSlot < slotsInUse mem .vmaSlot + objects) :
      Stops free pages mem objects (.panic "alloc_vma_slot: slot exhausted")

theorem Stops.mono {later : Memory Task SlotName} {more fewer extra objects : Nat}
    {fault : MemFault} (stops : Stops rest fewer later extra fault)
    (pages : free.length ≤ rest.length + (more - fewer)) (few : fewer ≤ more)
    (slots : slotsInUse later .vmaSlot + extra ≤ slotsInUse mem .vmaSlot + objects) :
    Stops free more mem objects fault := by
  cases stops with
  | memory tooFew => exact .memory (by omega)
  | slots full => exact .slots (by omega)

section

theorem yieldsOr_onPages {α : Type} {program : VmM Task α} {excused : MemFault → Prop}
    {post : α → VmState Task → Prop}
    (yields : YieldsOr program state.pages excused fun result pages =>
      post result (state.setPages pages)) : YieldsOr (onPages program) state excused post := by
  rw [YieldsOr] at yields ⊢
  rw [onPages]
  cases outcome : program state.pages with
  | error fault =>
    rw [outcome] at yields
    exact yields
  | ok value =>
    rw [outcome] at yields
    exact yields

theorem slotsInUse_full {mem : Memory Task SlotName} {name : SlotName}
    (full : ∀ cur < kernelSlots.num name,
      (mem.slots name cur).refc.toNat = kernelSlots.chunks name) :
    slotsInUse mem name = slotsMax name := by
  rw [slotsInUse, Finset.sum_const_nat fun cur inRange => full cur (Finset.mem_range.mp inRange),
    Finset.card_range, slotsMax]

theorem copyPage_eq {p page : Nat} (inMemory : p < NPAGE) :
    copyPage page (paddr p) state =
      .ok ((), { state with words := update state.words page (state.words p) }) := by
  have address := toNat_paddr inMemory
  have small : p < 131072 := inMemory
  have isMemory : (paddr p).toNat % PGSIZE = 0 ∧ PHY_MEMORY ≤ (paddr p).toNat ∧
      (paddr p).toNat < PHY_TOP := by
    rw [address]
    simp only [PHY_MEMORY, PHY_TOP, PHY_SIZE, PGSIZE]
    omega
  rw [copyPage, if_pos isMemory, pageOf_paddr inMemory]
  rfl

variable [DecidableEq Task]

theorem allocSlot_vma (stocked : Stocked stop live state free)
    (space : Space stop live (slotPage state.mem) state.pages free root) :
    YieldsOr (allocSlot .vmaSlot) state (Stops free 1 state.mem 1) fun _ after =>
      ∃ used rest, Extends stop live root state after free used rest ∧ used.length ≤ 1 ∧
        after.words = state.words ∧ after.mm = state.mm ∧
        slotsInUse after.mem .vmaSlot = slotsInUse state.mem .vmaSlot + 1 := by
  rcases stocked with ⟨lists, holds, slotted, lives⟩
  have ends := slotted.allocSlot holds .vmaSlot
  rw [YieldsOr, allocSlot]
  generalize outcome : state.mem.allocSlot kernelSlots .vmaSlot = result at ends
  cases ends with
  | noMemory noPages _ _ =>
    refine .memory ?_
    rw [noPages]
    exact Nat.zero_lt_one
  | exhausted full =>
    refine .slots ?_
    rw [slotsInUse_full full]
    exact Nat.lt_succ_self _
  | @found obj mem lists' rest done =>
    have taken : ∃ used, free = used ++ rest ∧ used.length ≤ 1 := by
      rcases done.lists with ⟨same, _⟩ | ⟨isFree, _⟩
      · exact ⟨[], same.symm, Nat.zero_le 1⟩
      · exact ⟨[obj.1], isFree, Nat.le_refl 1⟩
    have stillLive : ∀ t, live t → (lists' (some t)).isSome := by
      intro t isLive
      rcases done.lists with ⟨_, same⟩ | ⟨_, updated⟩
      · rw [same]
        exact lives t isLive
      · rw [updated, update_of_ne (by rintro ⟨⟩)]
        exact lives t isLive
    rcases taken with ⟨used, isFree, few⟩
    have stocked : Stocked stop live { state with mem := mem } rest :=
      ⟨lists', done.holds, done.slotted, stillLive⟩
    exact ⟨used, rest, .of_same space stocked isFree (fun _ _ => rfl) fun _ _ => rfl, few, rfl, rfl,
      slotsInUse_allocated done⟩

theorem allocPageForTask_data {t : Task} (isLive : live t) (stocked : Stocked stop live state free)
    (space : Space stop live (slotPage state.mem) state.pages free root) :
    YieldsOr (allocPageForTask t) state (Stops free 1 state.mem 0) fun p after => ∃ rest,
      Extends stop live root state after free [p] rest ∧ SameTable root state after ∧
        ¬ InTable state.pages root p ∧ after.words p = (fun _ => 0) ∧ after.mm = state.mm ∧
        after.mem.slots = state.mem.slots := by
  refine yieldsOr_onPages ((@Pool.newTable _ _ _ _ _ _ (some t) _ stocked.pool ?_).mono ?_ ?_)
  · rintro _ ⟨⟩
    exact isLive
  · rintro p pages ⟨rest, rfl, pool, content⟩
    have notIn : ¬ InTable state.pages root p := fun inTable =>
      (space.inUse inTable).2 List.mem_cons_self
    have unchanged : ∀ q, q ∉ [p] → (state.setPages pages).words q = state.words q := by
      intro q different
      rw [List.mem_singleton] at different
      exact (congrFun content q).trans (update_of_ne different _ _)
    have same : SameTable root state (state.setPages pages) := by
      intro q inTable
      apply unchanged
      rw [List.mem_singleton]
      rintro rfl
      exact notIn inTable
    exact ⟨rest, .of_same space (stocked.setPages pool) rfl same unchanged, same, notIn,
      (congrFun content p).trans (update_self _ _ _), rfl, rfl⟩
  · rintro fault ⟨rfl, few⟩
    exact .memory few

theorem taskVmmap_maps {t : Task} {mm : TaskMm} {va pa size : U64} {attr : BitVec 16}
    {type : VmaType} (isLive : live t) (isMm : state.mm t = some mm)
    (stocked : Stocked stop live state free)
    (space : Space stop live (slotPage state.mem) state.pages free mm.pagetable)
    (aligned : va.toNat % PGSIZE = 0) (paAligned : pa.toNat % PGSIZE = 0)
    (below : va.toNat + size.toNat ≤ VA_TOP) (paBelow : pa.toNat + size.toNat ≤ PHY_TOP)
    (noLarger : ∀ x, NoLarger state.pages mm.pagetable x .S_PAGE) :
    YieldsOr (taskVmmap t va pa size attr type) state
      (Stops free (1 + 2 * turns va (rangeEnd va size .S_PAGE) .S_PAGE) state.mem 1) fun _ after =>
        ∃ obj used rest, Extends stop live mm.pagetable state after free used rest ∧
          used.length ≤ 1 + 2 * turns va (rangeEnd va size .S_PAGE) .S_PAGE ∧
          after.mm = update state.mm t
            (some { mm with vmas := mm.vmas ++ [⟨obj, va, pa, size, type, attr⟩] }) ∧
          slotsInUse after.mem .vmaSlot = slotsInUse state.mem .vmaSlot + 1 ∧
          ∀ x : U64, x.toNat < 2 ^ 39 → leafOf after.pages mm.pagetable (indices x) =
            if (smallRegion va pa size attr).Has x then (smallRegion va pa size attr).leaf x
            else leafOf state.pages mm.pagetable (indices x) := by
  rw [taskVmmap]
  refine ((allocSlot_vma stocked space).mono (fun _ _ => id) ?_).bind ?_
  · intro fault stops
    exact stops.mono (by omega) (by omega) (Nat.le_refl _)
  rintro obj taken ⟨used, rest, extension, few, sameWords, sameMm, counts⟩
  have mmTaken : mmOf t taken = .ok (mm, taken) := by
    rw [mmOf, sameMm, isMm]
  refine yieldsOr_bind_of_ok mmTaken (yieldsOr_bind_of_ok rfl (yieldsOr_onPages ?_))
  have sameTable : SameTable mm.pagetable state taken := fun p _ => congrFun sameWords p
  have sameLeaf : ∀ x, leafOf taken.pages mm.pagetable (indices x) =
      leafOf state.pages mm.pagetable (indices x) :=
    fun x => sameTable.leafOf_eq (show (indices x).length ≤ 3 from Nat.le_refl 3)
  have stillNoLarger : ∀ x, NoLarger taken.pages mm.pagetable x .S_PAGE := by
    intro x pte below found
    rw [sameLeaf x] at found
    exact noLarger x pte below found
  have free_eq := congrArg List.length extension.free_eq
  rw [List.length_append] at free_eq
  refine (@Space.svmmap _ _ _ _ _ _ (some t) _ _ _ _ _ _ extension.space ?_ aligned paAligned below
    paBelow fun x _ => stillNoLarger x).mono ?_ ?_
  · rintro _ ⟨⟩
    exact isLive
  · rintro _ pages ⟨used', rest', grows, fewer, leaves⟩
    refine ⟨obj, used ++ used', rest',
      extension.trans ((Extends.of_grows extension.stocked grows).setMm t _), ?_, ?_, counts, ?_⟩
    · rw [List.length_append]
      omega
    · show update taken.mm t _ = _
      rw [sameMm]
    · intro x walkable
      rw [← sameLeaf x]
      exact leaves x walkable
  · rintro fault ⟨rfl, fewPages⟩
    exact .memory (by omega)

end
end Tnix.Vm
