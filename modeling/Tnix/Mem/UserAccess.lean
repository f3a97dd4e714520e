import Tnix.Mem.TaskMapping

/-! # Loads and stores of user programs

A user program reaches memory by the walk of the hardware, and only where an entry has the flag
for users. -/

namespace Tnix.Vm

open Mem
variable {Task : Type} {state after left right : VmState Task} {t u : Task} {x value : U64}

/-- The physical address for an access that needs some permissions. -/
def userAddress (state : VmState Task) (t : Task) (needs : BitVec 16) (x : U64) : Option U64 :=
  (state.mm t).bind fun mm =>
    (sv39 state.pages mm.pagetable x).bind fun found =>
      if found.2 &&& (PTE_U ||| needs).setWidth 64 = (PTE_U ||| needs).setWidth 64 then some found.1
      else none

def wordOf (address : U64) : Nat := address.toNat % PGSIZE / 8

def userLoad (state : VmState Task) (t : Task) (x : U64) : Option U64 :=
  (userAddress state t PTE_R x).map fun address => state.words (pageOf address) (wordOf address)

/-- A store that the hardware does not allow changes nothing. -/
def userStore (state : VmState Task) (t : Task) (x value : U64) : VmState Task :=
  match userAddress state t PTE_W x with
  | none => state
  | some address =>
    { state with words := Radix.store state.words (pageOf address) (wordOf address) value }

structure Store (Task : Type) where
  task : Task
  va : U64
  value : U64

def runStores (state : VmState Task) (stores : List (Store Task)) : VmState Task :=
  stores.foldl (fun state store => userStore state store.task store.va store.value) state

/-! ## Pages of users -/

def UserPage (state : VmState Task) (t : Task) (p : Nat) : Prop :=
  ∃ x address, userAddress state t 0 x = some address ∧ pageOf address = p

theorem userAddress_weaken {needs : BitVec 16} {address : U64}
    (found : userAddress state t needs x = some address) :
    userAddress state t 0 x = some address := by
  have part : (PTE_U ||| needs).setWidth 64 &&& (PTE_U ||| 0).setWidth 64 =
      (PTE_U ||| 0).setWidth 64 := by
    rw [← BitVec.setWidth_and]
    congr 1
    apply BitVec.eq_of_getLsbD_eq
    intro i _
    simp only [BitVec.getLsbD_and, BitVec.getLsbD_or]
    cases PTE_U.getLsbD i <;> simp
  rw [userAddress, Option.bind_eq_some_iff] at found
  rcases found with ⟨mm, isMm, found⟩
  rw [Option.bind_eq_some_iff] at found
  rcases found with ⟨walked, isWalked, found⟩
  split at found
  case isFalse => cases found
  case isTrue allowed =>
    have allowedToo : walked.2 &&& (PTE_U ||| 0).setWidth 64 = (PTE_U ||| 0).setWidth 64 := by
      rw [← part, ← BitVec.and_assoc, allowed]
    rw [userAddress, isMm, Option.bind_some, isWalked, Option.bind_some, if_pos allowedToo]
    exact found

theorem userPage_of_address {needs : BitVec 16} {address : U64}
    (found : userAddress state t needs x = some address) : UserPage state t (pageOf address) :=
  ⟨x, address, userAddress_weaken found, rfl⟩

theorem UserPage.exists_leaf {p : Nat} {mm : TaskMm} (isUser : UserPage state t p)
    (isMm : state.mm t = some mm) :
    ∃ x leaf found, leafOf state.pages mm.pagetable (indices x) = some leaf ∧
      physical x leaf.1 leaf.2.length = some found ∧ pageOf found.1 = p := by
  rcases isUser with ⟨x, address, isAddress, isPage⟩
  rw [userAddress, isMm, Option.bind_some, Option.bind_eq_some_iff] at isAddress
  rcases isAddress with ⟨found, isFound, isAddress⟩
  split at isAddress
  case isFalse => cases isAddress
  case isTrue =>
    cases isAddress
    by_cases canonical : Canonical x
    · rw [sv39_eq _ _ canonical, Option.bind_eq_some_iff] at isFound
      rcases isFound with ⟨leaf, isLeaf, isPhysical⟩
      exact ⟨x, leaf, found, isLeaf, isPhysical, isPage⟩
    · rw [sv39, if_neg canonical] at isFound
      cases isFound

def TablePage (state : VmState Task) (t : Task) (p : Nat) : Prop :=
  ∃ mm, state.mm t = some mm ∧ InTable state.pages mm.pagetable p

/-- The pages that the programs of a task get to are not of its table, and the other task has
no use for them. -/
structure Apart (state : VmState Task) (t u : Task) : Prop where
  ownTable : ∀ {p}, UserPage state t p → ¬ TablePage state t p
  otherTable : ∀ {p}, UserPage state t p → ¬ TablePage state u p
  otherPage : ∀ {p}, UserPage state t p → ¬ UserPage state u p

structure SameMap (state after : VmState Task) (t : Task) : Prop where
  mm : after.mm t = state.mm t
  words : ∀ {p}, TablePage state t p → after.words p = state.words p

namespace SameMap

theorem refl (state : VmState Task) (t : Task) : SameMap state state t := ⟨rfl, fun _ => rfl⟩

theorem sameTable (same : SameMap state after t) {mm : TaskMm} (isMm : state.mm t = some mm) :
    SameTable mm.pagetable state after :=
  fun _ inTable => same.words ⟨mm, isMm, inTable⟩

theorem tablePage_iff (same : SameMap state after t) {p : Nat} :
    TablePage after t p ↔ TablePage state t p := by
  rw [TablePage, TablePage, same.mm]
  refine exists_congr fun mm => and_congr_right fun isMm => ?_
  exact (same.sameTable isMm).inTable_iff

theorem trans {final : VmState Task} (first : SameMap state after t)
    (second : SameMap after final t) : SameMap state final t := by
  refine ⟨second.mm.trans first.mm, fun isTable => ?_⟩
  rw [second.words (first.tablePage_iff.mpr isTable), first.words isTable]

variable (same : SameMap state after t)
include same

theorem symm : SameMap after state t :=
  ⟨same.mm.symm, fun isTable => (same.words (same.tablePage_iff.mp isTable)).symm⟩

theorem userAddress_eq (needs : BitVec 16) (x : U64) :
    userAddress after t needs x = userAddress state t needs x := by
  rw [userAddress, userAddress, same.mm]
  cases isMm : state.mm t with
  | none => rfl
  | some mm =>
    have walk : sv39 after.pages mm.pagetable x = sv39 state.pages mm.pagetable x := by
      by_cases canonical : Canonical x
      · have leaf : leafOf after.pages mm.pagetable (indices x) =
            leafOf state.pages mm.pagetable (indices x) :=
          (same.sameTable isMm).leafOf_eq (Nat.le_refl 3)
        rw [sv39_eq _ _ canonical, sv39_eq _ _ canonical, leaf]
      · rw [sv39, sv39, if_neg canonical, if_neg canonical]
    simp only [Option.bind_some, walk]

theorem userPage_iff {p : Nat} : UserPage after t p ↔ UserPage state t p := by
  simp only [UserPage, same.userAddress_eq]

end SameMap

theorem Apart.of_same (apart : Apart state t u) (same : SameMap state after t)
    (other : SameMap state after u) : Apart after t u := by
  constructor <;> intro p isUser
  · rw [same.tablePage_iff]
    exact apart.ownTable (same.userPage_iff.mp isUser)
  · rw [other.tablePage_iff]
    exact apart.otherTable (same.userPage_iff.mp isUser)
  · rw [other.userPage_iff]
    exact apart.otherPage (same.userPage_iff.mp isUser)

/-! ## Stores -/

theorem userStore_cases (state : VmState Task) (t : Task) (x value : U64) :
    userStore state t x value = state ∨ ∃ address,
      userAddress state t PTE_W x = some address ∧ userStore state t x value =
        { state with words := Radix.store state.words (pageOf address) (wordOf address) value } := by
  rw [userStore]
  cases found : userAddress state t PTE_W x with
  | none => exact .inl rfl
  | some address => exact .inr ⟨address, rfl, rfl⟩

theorem userStore_words {p : Nat} (notUser : ¬ UserPage state t p) :
    (userStore state t x value).words p = state.words p := by
  rcases userStore_cases state t x value with same | ⟨address, found, stored⟩
  · rw [same]
  · rw [stored]
    apply Radix.store_place_of_ne
    rintro rfl
    exact notUser (userPage_of_address found)

theorem userStore_mm : (userStore state t x value).mm = state.mm := by
  rcases userStore_cases state t x value with same | ⟨address, _, stored⟩
  · rw [same]
  · rw [stored]

theorem Apart.sameMap_self (apart : Apart state t u) :
    SameMap state (userStore state t x value) t :=
  ⟨congrFun userStore_mm t, fun isTable =>
    userStore_words fun isUser => apart.ownTable isUser isTable⟩

theorem Apart.sameMap_other (apart : Apart state t u) :
    SameMap state (userStore state t x value) u :=
  ⟨congrFun userStore_mm u, fun isTable =>
    userStore_words fun isUser => apart.otherTable isUser isTable⟩

/-! ## What a user sees -/

structure Alike (left right : VmState Task) (u : Task) : Prop where
  map : SameMap left right u
  words : ∀ {p}, UserPage left u p → right.words p = left.words p

section
variable (alike : Alike left right u)
include alike

theorem Alike.userLoad_eq (x : U64) : userLoad right u x = userLoad left u x := by
  rw [userLoad, userLoad, alike.map.userAddress_eq]
  cases found : userAddress left u PTE_R x with
  | none => rfl
  | some address => simp only [Option.map_some, alike.words (userPage_of_address found)]

theorem Alike.other (apart : Apart left t u) : Alike (userStore left t x value) right u := by
  have same : SameMap left (userStore left t x value) u := apart.sameMap_other
  refine ⟨same.symm.trans alike.map, fun isUser => ?_⟩
  have wasUser := same.userPage_iff.mp isUser
  rw [alike.words wasUser, userStore_words fun isOther => apart.otherPage isOther wasUser]

theorem Alike.own (apart : Apart left u t) :
    Alike (userStore left u x value) (userStore right u x value) u := by
  have same : SameMap left (userStore left u x value) u := apart.sameMap_self
  have sameRight : SameMap right (userStore right u x value) u := by
    refine ⟨congrFun userStore_mm u, fun isTable => userStore_words fun isUser => ?_⟩
    exact apart.ownTable (alike.map.userPage_iff.mp isUser) (alike.map.tablePage_iff.mp isTable)
  refine ⟨(same.symm.trans alike.map).trans sameRight, fun {p} isUser => ?_⟩
  have sameWords := alike.words (same.userPage_iff.mp isUser)
  rw [userStore, userStore, alike.map.userAddress_eq PTE_W x]
  cases userAddress left u PTE_W x with
  | none => exact sameWords
  | some address =>
    show Radix.store right.words _ _ _ p = Radix.store left.words _ _ _ p
    by_cases here : p = pageOf address
    · rw [← here, Radix.store, Radix.store, Function.update_self, Function.update_self, sameWords]
    · rw [Radix.store_place_of_ne here, Radix.store_place_of_ne here, sameWords]

end

variable [DecidableEq Task] {stores : List (Store Task)}

theorem alike_runStores :
    ∀ {left right : VmState Task}, Alike left right u → Apart left t u → Apart left u t →
      (∀ store ∈ stores, store.task = t ∨ store.task = u) →
      Alike (runStores left stores) (runStores right (stores.filter (·.task = u))) u := by
  induction stores with
  | nil =>
    intro left right alike _ _ _
    exact alike
  | cons store stores induction =>
    intro left right alike apart back tasks
    have later : ∀ other ∈ stores, other.task = t ∨ other.task = u :=
      fun other isOther => tasks other (List.mem_cons_of_mem _ isOther)
    by_cases own : store.task = u
    · have keeps : runStores right ((store :: stores).filter (·.task = u)) =
          runStores (userStore right u store.va store.value) (stores.filter (·.task = u)) := by
        rw [List.filter_cons_of_pos (by simp [own]), runStores, List.foldl_cons, own]
        rfl
      rw [keeps, runStores, List.foldl_cons, own]
      exact induction (alike.own back) (apart.of_same back.sameMap_other back.sameMap_self)
        (back.of_same back.sameMap_self back.sameMap_other) later
    · have other := (tasks store List.mem_cons_self).resolve_right own
      rw [List.filter_cons_of_neg (by simp [own]), runStores, List.foldl_cons, other]
      exact induction (alike.other apart) (apart.of_same apart.sameMap_self apart.sameMap_other)
        (back.of_same apart.sameMap_other apart.sameMap_self) later

theorem Apart.userLoad_eq (apart : Apart state t u) (back : Apart state u t)
    (tasks : ∀ store ∈ stores, store.task = t ∨ store.task = u) (x : U64) :
    userLoad (runStores state stores) u x =
      userLoad (runStores state (stores.filter (·.task = u))) u x :=
  ((alike_runStores ⟨.refl state u, fun _ => rfl⟩ apart back tasks).userLoad_eq x).symm

end Tnix.Vm
