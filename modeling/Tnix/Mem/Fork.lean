import Tnix.Mem.UserAccess

/-! # Fork

`copy_pagetable` gives the child a copy of every page of the parent that is in a vma, under
the same addresses, and shares none with it. -/

namespace Tnix.Vm

open Function List Mem Program
variable {Task : Type} {stop : Nat} {live : Task → Prop} {lists : Mem.Lists Task}
  {start state after : VmState Task} {free used rest held : List Nat} {c p : Task} {cm pm : TaskMm}

/-! ## Vmas -/

def Vma.region (v : Vma) : Region := smallRegion v.va v.pa v.size v.attr

def vmaOf (vmas : List Vma) (x : U64) : Option Vma := vmas.reverse.find? fun v => v.region.Has x

def MapsVmas (state : VmState Task) (mm : TaskMm) : Prop :=
  ∀ x v, vmaOf mm.vmas x = some v → translation state.pages mm.pagetable x =
    .ok (v.pa + (x - v.va), some (PTE_V ||| v.attr.setWidth 64))

structure Vma.OnePage (v : Vma) : Prop where
  size : v.size = BitVec.ofNat 64 PGSIZE
  aligned : v.va.toNat % PGSIZE = 0
  below : v.va.toNat + PGSIZE ≤ VA_TOP

/-- The task that forks. Its table, and all that its programs get to, are pages of its own. -/
structure Parent (lists : Mem.Lists Task) (state : VmState Task) (p : Task) (pm : TaskMm)
    (held : List Nat) : Prop where
  mm : state.mm p = some pm
  pages : lists (some p) = some held
  tree : Radix.Tree readEntry state.words pm.pagetable 3
  table : ∀ {q}, InTable state.pages pm.pagetable q → q ∈ held
  vma : ∀ {v}, v ∈ pm.vmas → v.OnePage ∧ ∃ q ∈ held, v.pa = paddr q
  maps : MapsVmas state pm
  users : ∀ {q}, UserPage state p q → q ∈ held ∧ ¬ InTable state.pages pm.pagetable q

structure Child (lists : Mem.Lists Task) (state : VmState Task) (c : Task) (cm : TaskMm)
    (held : List Nat) : Prop where
  mm : state.mm c = some cm
  pages : lists (some c) = some held
  vmas : cm.vmas = []
  root : cm.pagetable ∈ held
  blank : ∀ index, state.words cm.pagetable index = 0

/-! ## Copies -/

/-- A vma of the parent and the one that has been made from it, with its page. -/
structure Copy where
  original : Vma
  copy : Vma
  page : Nat

structure Copy.Mirrors (made : Copy) : Prop where
  va : made.copy.va = made.original.va
  size : made.copy.size = made.original.size
  type : made.copy.type = made.original.type
  attr : made.copy.attr = made.original.attr
  pa : made.copy.pa = paddr made.page

/-- The page of the copy is a new one, and has the contents of the original. -/
structure Copy.Sound (made : Copy) (start state : VmState Task) (root : Nat) (used : List Nat) :
    Prop where
  mirrors : made.Mirrors
  isUsed : made.page ∈ used
  notTable : ¬ InTable state.pages root made.page
  words : state.words made.page = start.words (pageOf made.original.pa)

/-- What has been done after some turns of the loop of `copy_pagetable`. -/
structure Copied [DecidableEq Task] (stop : Nat) (live : Task → Prop) (start : VmState Task)
    (free : List Nat) (c : Task) (cm : TaskMm) (copies : List Copy) (state : VmState Task)
    (used rest : List Nat) : Prop where
  grown : Extends stop live cm.pagetable start state free used rest
  mm : state.mm = update start.mm c (some { cm with vmas := copies.map (·.copy) })
  sound : ∀ {made}, made ∈ copies → made.Sound start state cm.pagetable used
  nodup : (copies.map (·.page)).Nodup
  leaves : ∀ x : U64, x.toNat < 2 ^ 39 → leafOf state.pages cm.pagetable (indices x) =
    leafIn (copies.reverse.map (·.copy.region)) x
  few : used.length ≤ 4 * copies.length
  slots : slotsInUse state.mem .vmaSlot = slotsInUse start.mem .vmaSlot + copies.length

section
variable [DecidableEq Task] {copies : List Copy}

section
variable (copied : Copied stop live start free c cm copies state used rest)
include copied

theorem Copied.noLarger (x : U64) : NoLarger state.pages cm.pagetable x .S_PAGE := by
  intro pte below found
  have walkable : (BitVec.ofNat 64 (x.toNat % 2 ^ 39)).toNat < 2 ^ 39 := by
    rw [BitVec.toNat_ofNat]
    exact Nat.lt_of_le_of_lt (Nat.mod_le _ _) (Nat.mod_lt _ (by decide))
  rw [indices_upper, copied.leaves _ walkable] at found
  refine Nat.le_of_eq (length_leafIn ?_ found)
  intro region isRegion
  rcases mem_map.mp isRegion with ⟨made, _, rfl⟩
  rfl

theorem Copied.nodup_free (nodup : free.Nodup) : rest.Nodup ∧ ∀ {q}, q ∈ used → q ∉ rest := by
  rw [copied.grown.free_eq, nodup_append] at nodup
  exact ⟨nodup.2.1, fun isUsed isRest => nodup.2.2 _ isUsed _ isRest rfl⟩

end

theorem turns_onePage {v : Vma} (onePage : v.OnePage) :
    v.va.toNat + v.size.toNat ≤ VA_TOP ∧ turns v.va (rangeEnd v.va v.size .S_PAGE) .S_PAGE = 1 := by
  have size : v.size.toNat = PGSIZE := by
    rw [onePage.size]
    rfl
  have below : v.va.toNat + v.size.toNat ≤ VA_TOP := by
    rw [size]
    exact onePage.below
  refine ⟨below, ?_⟩
  rw [turns, (toNat_rangeEnd below .S_PAGE).1, alignUp, size,
    show Granularity.S_PAGE.delta = PGSIZE from rfl]
  have aligned := onePage.aligned
  simp only [PGSIZE] at aligned ⊢
  omega

theorem paddr_mappable {page : Nat} (inMemory : page < NPAGE) :
    (paddr page).toNat % PGSIZE = 0 ∧ (paddr page).toNat + PGSIZE ≤ PHY_TOP := by
  have small : page < 131072 := inMemory
  rw [toNat_paddr inMemory]
  simp only [PHY_MEMORY, PHY_TOP, PHY_SIZE, PGSIZE]
  omega

section
variable (copied : Copied stop live start free c cm copies state used rest)
include copied

theorem Copied.add (nodup : free.Nodup) {v : Vma} {obj : Obj} {q page : Nat} {taken : VmState Task}
    {used' middle rest' : List Nat} (isPage : pageOf v.pa = q) (notFree : q ∉ free)
    (notTable : ¬ InTable start.pages cm.pagetable q)
    (takes : Extends stop live cm.pagetable state taken rest [page] middle)
    (maps : Extends stop live cm.pagetable taken after middle used' rest')
    (same : SameTable cm.pagetable state taken) (few : used'.length ≤ 3)
    (content : taken.words page = state.words q) (mm : after.mm = update state.mm c (some { cm with
      vmas := copies.map (·.copy) ++ [⟨obj, v.va, paddr page, v.size, v.type, v.attr⟩] }))
    (slots : slotsInUse after.mem .vmaSlot = slotsInUse state.mem .vmaSlot + 1)
    (leaves : ∀ x : U64, x.toNat < 2 ^ 39 → leafOf after.pages cm.pagetable (indices x) =
      if (smallRegion v.va (paddr page) v.size v.attr).Has x then
        (smallRegion v.va (paddr page) v.size v.attr).leaf x
      else leafOf taken.pages cm.pagetable (indices x)) :
    Copied stop live start free c cm
      (copies ++ [⟨v, ⟨obj, v.va, paddr page, v.size, v.type, v.attr⟩, page⟩]) after
      (used ++ ([page] ++ used')) rest' := by
  have grown := takes.trans maps
  rcases copied.nodup_free nodup with ⟨restNodup, notRest⟩
  rw [grown.free_eq, append_assoc, singleton_append, nodup_cons, mem_append, not_or] at restNodup
  have isFree : page ∈ rest := by
    rw [grown.free_eq]
    simp
  have notUsed : ∀ {r}, r ∈ used → r ∉ [page] ++ used' := by
    intro r isUsed isNew
    apply notRest isUsed
    rw [grown.free_eq]
    exact mem_append_left _ isNew
  have notIn : ¬ InTable taken.pages cm.pagetable page := by
    rw [same.inTable_iff]
    exact fun inTable => (copied.grown.space.inUse inTable).2 isFree
  have sourceSame : state.words q = start.words q := by
    apply copied.grown.frame notTable
    intro isUsed
    apply notFree
    rw [copied.grown.free_eq]
    exact mem_append_left _ isUsed
  have stays : ∀ {made : Copy}, made ∈ copies →
      made.Sound start after cm.pagetable (used ++ ([page] ++ used')) := by
    intro made isMade
    have sound := copied.sound isMade
    have isNot := notUsed sound.isUsed
    refine ⟨sound.mirrors, mem_append_left _ sound.isUsed, fun inTable => ?_, ?_⟩
    · exact (grown.inTable inTable).elim sound.notTable isNot
    · exact (grown.frame sound.notTable isNot).trans sound.words
  have new : Copy.Sound ⟨v, ⟨obj, v.va, paddr page, v.size, v.type, v.attr⟩, page⟩ start after
      cm.pagetable (used ++ ([page] ++ used')) := by
    refine ⟨⟨rfl, rfl, rfl, rfl, rfl⟩, by simp, fun inTable => ?_, ?_⟩
    · exact (maps.inTable inTable).elim notIn restNodup.1.1
    · refine (maps.frame notIn restNodup.1.1).trans (content.trans ?_)
      rw [isPage, sourceSame]
  refine ⟨copied.grown.trans grown, ?_, ?_, ?_, ?_, ?_, ?_⟩
  · rw [mm, copied.mm, update_idem, map_append]
    rfl
  · intro made isMade
    rcases mem_append.mp isMade with before | isNew
    · exact stays before
    · rw [mem_singleton.mp isNew]
      exact new
  · rw [map_append, nodup_append]
    refine ⟨copied.nodup, nodup_singleton _, ?_⟩
    intro r isOld r' isNew equal
    rcases mem_map.mp isOld with ⟨made, isMade, rfl⟩
    rw [map_singleton, mem_singleton] at isNew
    refine notUsed (copied.sound isMade).isUsed ?_
    rw [equal, isNew]
    exact mem_cons_self
  · intro x walkable
    rw [leaves x walkable, same.leafOf_eq (show (indices x).length ≤ 3 from Nat.le_refl 3),
      copied.leaves x walkable, reverse_append, reverse_singleton,
      singleton_append, map_cons, leafIn]
    rfl
  · have before := copied.few
    simp only [length_append, length_singleton]
    omega
  · have before := copied.slots
    rw [length_append, length_singleton]
    omega

theorem Copied.copyVma
    (isLive : live c) (nodup : free.Nodup) {v : Vma} {q : Nat} (onePage : v.OnePage)
    (isPage : v.pa = paddr q) (inMemory : q < NPAGE) (notFree : q ∉ free)
    (notTable : ¬ InTable start.pages cm.pagetable q) : YieldsOr (copyVma c v) state
      (Stops free (4 * (copies.length + 1)) start.mem (copies.length + 1)) fun _ after =>
        ∃ made used' rest', made.original = v ∧
          Copied stop live start free c cm (copies ++ [made]) after used' rest' := by
  have count := congrArg List.length copied.grown.free_eq
  rw [length_append] at count
  have few := copied.few
  have slots := copied.slots
  rw [Vm.copyVma]
  refine ((allocPageForTask_data isLive copied.grown.stocked copied.grown.space).mono
    (fun _ _ => id) ?_).bind ?_
  · intro fault stops
    exact stops.mono (by omega) (by omega) (by omega)
  rintro page taken ⟨middle, takes, same, notIn, zero, sameMm, sameSlots⟩
  have isFree : page ∈ rest := by
    rw [takes.free_eq]
    exact mem_cons_self
  have pageInMemory := copied.grown.space.pool.inMemory isFree
  have isSource : pageOf v.pa = q := by
    rw [isPage, pageOf_paddr inMemory]
  rw [isPage]
  refine yieldsOr_bind_of_ok (copyPage_eq inMemory) ?_
  have notInTaken : ¬ InTable taken.pages cm.pagetable page := by
    rw [same.inTable_iff]
    exact notIn
  have different : q ≠ page := by
    rintro rfl
    apply notFree
    rw [copied.grown.free_eq]
    exact mem_append_right _ isFree
  have copies' := takes.setWords mem_cons_self notInTaken (taken.words q)
  have sameCopy : SameTable cm.pagetable state
      { taken with words := update taken.words page (taken.words q) } := by
    intro r inTable
    have other : r ≠ page := by
      rintro rfl
      exact notIn inTable
    exact (update_of_ne other _ _).trans (same r inTable)
  have content : update taken.words page (taken.words q) page = state.words q := by
    rw [update_self]
    refine takes.frame (fun inTable => ?_) (by simpa using different)
    rcases copied.grown.inTable inTable with before | isUsed
    · exact notTable before
    · apply notFree
      rw [copied.grown.free_eq]
      exact mem_append_left _ isUsed
  have isMm : taken.mm c = some { cm with vmas := copies.map (·.copy) } := by
    rw [sameMm, copied.mm, update_self]
  rcases turns_onePage onePage with ⟨below, oneTurn⟩
  rcases paddr_mappable pageInMemory with ⟨paAligned, paBelow⟩
  have noLarger : ∀ x, NoLarger
      ({ taken with words := update taken.words page (taken.words q) } :
        VmState Task).pages cm.pagetable x .S_PAGE := by
    intro x pte under found
    rw [sameCopy.leafOf_eq (show (indices x).length ≤ 3 from Nat.le_refl 3)] at found
    exact copied.noLarger x pte under found
  have maps := @taskVmmap_maps _ stop live
    { taken with words := update taken.words page (taken.words q) } middle _ c
    { cm with vmas := copies.map (·.copy) } v.va (paddr page) v.size v.attr v.type isLive isMm
    copies'.stocked copies'.space onePage.aligned paAligned below (by rw [onePage.size]; exact paBelow)
    noLarger
  rw [oneTurn] at maps
  have middleCount := congrArg List.length takes.free_eq
  rw [length_append, length_singleton] at middleCount
  have sameCount : slotsInUse taken.mem .vmaSlot = slotsInUse state.mem .vmaSlot := by
    rw [slotsInUse, slotsInUse, sameSlots]
  refine maps.mono ?_ ?_
  · rintro _ after ⟨obj, used', rest', mapped, fewUsed, mm, counts, leaves⟩
    have oneMore : slotsInUse after.mem .vmaSlot = slotsInUse taken.mem .vmaSlot + 1 := counts
    have newMm : after.mm = update state.mm c (some { cm with
        vmas := copies.map (·.copy) ++ [⟨obj, v.va, paddr page, v.size, v.type, v.attr⟩] }) := by
      rw [mm, ← sameMm]
    exact ⟨_, _, _, rfl, copied.add nodup isSource notFree notTable copies' mapped sameCopy fewUsed
      content newMm (by omega) leaves⟩
  · intro fault stops
    refine stops.mono (by omega) (by omega) ?_
    show slotsInUse taken.mem .vmaSlot + 1 ≤ _
    omega

end

theorem Copied.copyVmas (isLive : live c) (nodup : free.Nodup) {vmas : List Vma}
    (fits : ∀ v ∈ vmas, v.OnePage ∧ ∃ q, v.pa = paddr q ∧ q < NPAGE ∧ q ∉ free ∧
      ¬ InTable start.pages cm.pagetable q) :
    ∀ {copies : List Copy} {state : VmState Task} {used rest : List Nat},
      Copied stop live start free c cm copies state used rest →
      YieldsOr (copyVmas c vmas) state (Stops free (4 * (copies.length + vmas.length)) start.mem
        (copies.length + vmas.length)) fun _ after =>
          ∃ more used' rest', more.map (·.original) = vmas ∧
            Copied stop live start free c cm (copies ++ more) after used' rest' := by
  induction vmas with
  | nil =>
    intro copies state used rest copied
    refine yieldsOr_pure ⟨[], used, rest, rfl, ?_⟩
    rw [append_nil]
    exact copied
  | cons v vmas induction =>
    intro copies state used rest copied
    rcases fits v mem_cons_self with ⟨onePage, q, isPage, inMemory, notFree, notTable⟩
    rw [Vm.copyVmas]
    refine ((copied.copyVma isLive nodup onePage isPage inMemory notFree notTable).mono
      (fun _ _ => id) ?_).bind ?_
    · intro fault stops
      rw [length_cons]
      exact stops.mono (by omega) (by omega) (by omega)
    rintro _ after ⟨made, used', rest', isOriginal, copiedAfter⟩
    refine (induction (fun w isVma => fits w (mem_cons_of_mem v isVma)) copiedAfter).mono
      ?_ ?_
    · rintro _ final ⟨more, used'', rest'', originals, copiedFinal⟩
      refine ⟨made :: more, used'', rest'', ?_, ?_⟩
      · rw [map_cons, isOriginal, originals]
      · rwa [append_assoc, singleton_append] at copiedFinal
    · intro fault stops
      rw [length_append, length_singleton] at stops
      rw [length_cons]
      exact stops.mono (by omega) (by omega) (by omega)

end
end Tnix.Vm
