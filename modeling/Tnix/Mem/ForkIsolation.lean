import Mathlib.Data.List.Find
import Tnix.Mem.Fork

/-! # Parent and child

After `copy_pagetable` the child sees under every address of a vma what the parent sees there,
and from then on neither of them sees what the other one stores. -/

namespace Tnix.Vm

open Function List Mem Program
variable {Task : Type} [DecidableEq Task] {stop : Nat} {live : Task → Prop}
  {lists : Mem.Lists Task} {start state : VmState Task} {free used rest held : List Nat}
  {c p : Task} {cm pm : TaskMm} {copies : List Copy} {x : U64}

/-! ## Attributes -/

theorem attr_of_flags {pte : U64} {attr : BitVec 16} (reading : readEntry pte = .leaf)
    (isFlags : flagsOf pte = PTE_V ||| attr.setWidth 64) : Permits attr ∧ IsFlags attr := by
  have mask : ∀ i < 64, (0x3FF : U64).getLsbD i = decide (i < 10) := by decide
  have valid : ∀ i < 64, 0 < i → PTE_V.getLsbD i = false := by decide
  have bit : ∀ i < 64, 0 < i → (pte.getLsbD i && decide (i < 10)) = attr.getLsbD i := by
    intro i inWord positive
    have same := congrArg (BitVec.getLsbD · i) isFlags
    simp only [flagsOf, BitVec.getLsbD_and, BitVec.getLsbD_or, BitVec.getLsbD_setWidth, mask i inWord,
      valid i inWord positive, inWord, decide_true, Bool.true_and, Bool.false_or] at same
    exact same
  constructor
  · have flags := flags_of_reading pte
    rw [reading] at flags
    have leaf := flags.2
    rw [isLeaf_eq] at leaf
    rw [Permits, ← bit 1 (by decide) (by decide), ← bit 2 (by decide) (by decide),
      ← bit 3 (by decide) (by decide)]
    simpa using leaf
  · refine Nat.lt_pow_two_of_testBit _ fun i high => ?_
    by_cases inWord : i < 64
    · have same := bit i inWord (by omega)
      rw [decide_eq_false (by omega), Bool.and_false] at same
      exact same.symm
    · exact BitVec.getLsbD_of_ge attr i (by omega)

theorem pageOf_physical {page : Nat} {attr : BitVec 16} {found : U64 × U64}
    (inMemory : page < NPAGE) (isFlags : IsFlags attr)
    (isFound : physical x (leafPte (paddr page) attr) 0 = some found) : pageOf found.1 = page := by
  have small : page < 131072 := inMemory
  have address := toNat_paddr inMemory
  have isFrame : (frame (leafPte (paddr page) attr)).toNat = (paddr page).toNat := by
    rw [frame_leafPte (by rw [address]; simp only [PHY_MEMORY, PGSIZE]; omega) isFlags, address]
    simp only [PHY_MEMORY, PGSIZE]
    omega
  have offset : x.toNat % span 0 < PGSIZE := Nat.mod_lt _ (by decide)
  rw [physical] at isFound
  split at isFound
  case isTrue => cases isFound
  case isFalse =>
    split at isFound
    case isTrue => cases isFound
    case isFalse =>
      cases isFound
      have sum : (frame (leafPte (paddr page) attr) + BitVec.ofNat 64 (x.toNat % span 0)).toNat =
          PHY_MEMORY + page * PGSIZE + x.toNat % span 0 := by
        rw [BitVec.toNat_add, isFrame, address, BitVec.toNat_ofNat, Nat.add_mod_mod]
        apply Nat.mod_eq_of_lt
        simp only [PHY_MEMORY, PGSIZE] at offset ⊢
        omega
      apply pageOf_eq
      · rw [sum]
        exact Nat.le_add_right _ _
      · rw [sum]
        simp only [PGSIZE] at offset ⊢
        omega

/-! ## The vma of an address -/

def copyOf (copies : List Copy) (x : U64) : Option Copy :=
  copies.reverse.find? fun made => made.copy.region.Has x

theorem vmaOf_originals (mirrors : ∀ made ∈ copies, made.Mirrors) (x : U64) :
    vmaOf (copies.map (·.original)) x = (copyOf copies x).map (·.original) := by
  rw [vmaOf, ← map_reverse, find?_map, copyOf]
  congr 1
  refine find?_congr fun made isMade => ?_
  have same := mirrors made (mem_reverse.mp isMade)
  refine decide_eq_decide.mpr ?_
  simp only [Region.Has, Vma.region, smallRegion, same.va, same.size]

omit [DecidableEq Task] in
theorem Parent.space (parent : Parent lists start p pm held)
    (holds : Holds stop start.mem.pages lists free) (stocked : Stocked stop live start free) :
    Space stop live (slotPage start.mem) start.pages free pm.pagetable := by
  refine ⟨stocked.pool, parent.tree, fun inTable => ?_⟩
  have isHeld := parent.table inTable
  refine ⟨(holds.usable parent.pages isHeld).1, fun isFree => ?_⟩
  cases holds.threaded.once parent.pages holds.isFree isHeld isFree

section
variable (copied : Copied stop live start free c cm copies state used rest)
  (originals : copies.map (·.original) = pm.vmas)
  (space : Space stop live (slotPage start.mem) start.pages free pm.pagetable)
  (maps : MapsVmas start pm) (fits : ∀ v ∈ pm.vmas, v.OnePage)
include copied originals

variable {made : Copy}

theorem translation_original (maps : MapsVmas start pm) (isCopy : copyOf copies x = some made) :
    translation start.pages pm.pagetable x = .ok (made.original.pa + (x - made.original.va),
        some (PTE_V ||| made.original.attr.setWidth 64)) := by
  have isVma : vmaOf pm.vmas x = some made.original := by
    rw [← originals, vmaOf_originals (fun made isMade => (copied.sound isMade).mirrors), isCopy]
    rfl
  exact maps x _ isVma

include space maps

theorem attr_copy (isCopy : copyOf copies x = some made) :
    Permits made.copy.attr ∧ IsFlags made.copy.attr := by
  have isMade : made ∈ copies := mem_reverse.mp (mem_of_find?_eq_some isCopy)
  have found := translation_original copied originals maps isCopy
  rw [space.translation_eq] at found
  rw [(copied.sound isMade).mirrors.attr]
  cases isLeaf : leafOf start.pages pm.pagetable (indices x) with
  | none =>
    rw [isLeaf] at found
    cases congrArg Prod.snd (Except.ok.inj found)
  | some leaf =>
    rw [isLeaf] at found
    have flags := congrArg Prod.snd (Except.ok.inj found)
    exact attr_of_flags (Radix.read_of_lookup isLeaf) (Option.some.inj flags)

include fits

omit maps in
theorem bounds_copy (isCopy : copyOf copies x = some made) :
    made.copy.va.toNat % PGSIZE = 0 ∧ made.copy.va.toNat ≤ x.toNat ∧
      x.toNat < made.copy.va.toNat + PGSIZE ∧ made.page < NPAGE := by
  have isMade : made ∈ copies := mem_reverse.mp (mem_of_find?_eq_some isCopy)
  have sound := copied.sound isMade
  have isHere : made.copy.region.Has x := by simpa using find?_some isCopy
  have onePage : made.original.OnePage := by
    apply fits
    rw [← originals]
    exact mem_map_of_mem isMade
  have size : made.copy.size.toNat = PGSIZE := by
    rw [sound.mirrors.size, onePage.size]
    rfl
  have below : made.copy.va.toNat + made.copy.size.toNat ≤ VA_TOP := by
    rw [sound.mirrors.va, size]
    exact onePage.below
  have aligned : made.copy.va.toNat % PGSIZE = 0 := by
    rw [sound.mirrors.va]
    exact onePage.aligned
  have onPages : OnPages made.copy.va made.copy.size x := (inRange_rangeEnd below x).mp isHere
  have inMemory : made.page < NPAGE := by
    apply space.pool.inMemory
    rw [copied.grown.free_eq]
    exact mem_append_left _ sound.isUsed
  rw [OnPages, alignUp, size] at onPages
  refine ⟨aligned, onPages.1, ?_, inMemory⟩
  simp only [PGSIZE] at aligned onPages ⊢
  omega

theorem leafOf_copy (walkable : x.toNat < 2 ^ 39) (isCopy : copyOf copies x = some made) :
    leafOf state.pages cm.pagetable (indices x) =
      some (leafPte (paddr made.page) made.copy.attr, []) := by
  have isMade : made ∈ copies := mem_reverse.mp (mem_of_find?_eq_some isCopy)
  rcases bounds_copy copied originals space fits isCopy with ⟨_, _, before, _⟩
  have permits := (attr_copy copied originals space maps isCopy).1
  have isFound : (copies.reverse.map (·.copy.region)).find? (fun region => region.Has x) =
      some made.copy.region := by
    rw [find?_map]
    exact congrArg (Option.map (·.copy.region)) isCopy
  have pte : rangePte made.copy.va made.copy.pa made.copy.attr .S_PAGE x =
      leafPte (paddr made.page) made.copy.attr := by
    rw [rangePte_first (show _ < _ + Granularity.S_PAGE.delta from before),
      (copied.sound isMade).mirrors.pa]
  rw [copied.leaves x walkable, leafIn_eq_find, isFound, Option.bind_some]
  show leafFor (rangePte made.copy.va made.copy.pa made.copy.attr .S_PAGE x) .S_PAGE x = _
  rw [pte, leafFor, if_pos (readEntry_leafPte _ permits)]
  rfl

omit space maps fits originals in
theorem leafOf_of_no_copy (walkable : x.toNat < 2 ^ 39) (noCopy : copyOf copies x = none) :
    leafOf state.pages cm.pagetable (indices x) = none := by
  have notFound : (copies.reverse.map (·.copy.region)).find? (fun region => region.Has x) =
      none := by
    rw [find?_map]
    exact congrArg (Option.map (·.copy.region)) noCopy
  rw [copied.leaves x walkable, leafIn_eq_find, notFound]
  rfl

theorem translation_copy (isCopy : copyOf copies x = some made) :
    translation state.pages cm.pagetable x =
      .ok (made.copy.pa + (x - made.copy.va), some (PTE_V ||| made.copy.attr.setWidth 64)) := by
  have isMade : made ∈ copies := mem_reverse.mp (mem_of_find?_eq_some isCopy)
  rcases bounds_copy copied originals space fits isCopy with ⟨aligned, after, before, inMemory⟩
  have isFlags := (attr_copy copied originals space maps isCopy).2
  have onePage : made.original.OnePage := by
    apply fits
    rw [← originals]
    exact mem_map_of_mem isMade
  have walkable : x.toNat < 2 ^ 39 := by
    have below := onePage.below
    rw [← (copied.sound isMade).mirrors.va] at below
    simp only [PGSIZE, VA_TOP] at below before
    omega
  have pte : leafPte (paddr made.page) made.copy.attr =
      rangePte made.copy.va (paddr made.page) made.copy.attr .S_PAGE x :=
    (rangePte_first (show _ < _ + Granularity.S_PAGE.delta from before)).symm
  have address : (frame (leafPte (paddr made.page) made.copy.attr) |||
      (x &&& BitVec.ofNat 64 (PGSIZE - 1))) = paddr made.page + (x - made.copy.va) := by
    rcases paddr_mappable inMemory with ⟨paAligned, paBelow⟩
    rw [pte]
    refine translated_rangePte aligned paAligned after ?_ isFlags
    simp only [PGSIZE, PHY_TOP, PHY_MEMORY, PHY_SIZE] at before paBelow
    omega
  rw [copied.grown.space.translation_eq, leafOf_copy copied originals space maps fits walkable isCopy,
    (copied.sound isMade).mirrors.pa]
  simp only [translated, address, Option.map_some, flagsOf_leafPte isFlags]

theorem userPage_copy {q : Nat} (isUser : UserPage state c q) :
    ∃ made ∈ copies, made.page = q := by
  have isMm : state.mm c = some { cm with vmas := copies.map (·.copy) } := by
    rw [copied.mm, update_self]
  rcases isUser.exists_leaf isMm with ⟨x, leaf, found, isLeaf, isPhysical, isPage⟩
  have walkable : (BitVec.ofNat 64 (x.toNat % 2 ^ 39)).toNat < 2 ^ 39 := by
    rw [BitVec.toNat_ofNat]
    exact Nat.lt_of_le_of_lt (Nat.mod_le _ _) (Nat.mod_lt _ (by decide))
  rw [indices_upper] at isLeaf
  cases isCopy : copyOf copies (BitVec.ofNat 64 (x.toNat % 2 ^ 39)) with
  | none =>
    rw [leafOf_of_no_copy copied walkable isCopy] at isLeaf
    cases isLeaf
  | some made =>
    have isMade : made ∈ copies := mem_reverse.mp (mem_of_find?_eq_some isCopy)
    refine ⟨made, isMade, ?_⟩
    rcases bounds_copy copied originals space fits isCopy with ⟨_, _, _, inMemory⟩
    have isFlags := (attr_copy copied originals space maps isCopy).2
    rw [leafOf_copy copied originals space maps fits walkable isCopy] at isLeaf
    cases isLeaf
    rw [← isPage]
    exact (pageOf_physical inMemory isFlags isPhysical).symm

end

/-! ## The start of the loop -/

section
variable (child : Child lists start c cm held)
include child

omit [DecidableEq Task] in
theorem Child.onlyRoot {q : Nat} (inTable : InTable start.pages cm.pagetable q) :
    q = cm.pagetable := by
  rcases inTable with ⟨path, _, reaches⟩
  exact (Radix.follow_of_blank (fun index => congrArg readEntry (child.blank index)) reaches).2

omit [DecidableEq Task] in
theorem Child.space (holds : Holds stop start.mem.pages lists free)
    (stocked : Stocked stop live start free) :
    Space stop live (slotPage start.mem) start.pages free cm.pagetable := by
  refine ⟨stocked.pool, .of_blank (fun index => congrArg readEntry (child.blank index)) 3, ?_⟩
  intro q inTable
  rw [child.onlyRoot inTable]
  refine ⟨(holds.usable child.pages child.root).1, fun isFree => ?_⟩
  cases holds.threaded.once child.pages holds.isFree child.root isFree

theorem Child.copied (holds : Holds stop start.mem.pages lists free)
    (stocked : Stocked stop live start free) :
    Copied stop live start free c cm [] start [] free := by
  have space := child.space holds stocked
  have noVmas : ({ cm with vmas := [] } : TaskMm) = cm := by
    rw [← child.vmas]
  refine ⟨⟨.refl space, stocked⟩, ?_, ?_, nodup_nil, ?_, Nat.le_refl 0, rfl⟩
  · rw [map_nil, noVmas, ← child.mm, update_eq_self]
  · intro made isMade
    cases isMade
  · intro x _
    exact Radix.lookup_of_blank (fun index => congrArg readEntry (child.blank index)) _

end

/-! ## Fork -/

/-- What is there after `copy_pagetable`, for a parent that holds some pages. -/
structure Forked (start state : VmState Task) (c p : Task) (pm : TaskMm) (held : List Nat)
    (cm : TaskMm) (copies : List Copy) : Prop where
  child : state.mm c = some cm
  vmas : cm.vmas = copies.map (·.copy)
  originals : pm.vmas = copies.map (·.original)
  mirrors : ∀ {made}, made ∈ copies → made.Mirrors
  /-- The translations of the child. -/
  sees : ∀ {x v}, vmaOf pm.vmas x = some v → ∃ made ∈ copies, made.original = v ∧
    translation state.pages cm.pagetable x =
      .ok (paddr made.page + (x - v.va), some (PTE_V ||| v.attr.setWidth 64))
  contents : ∀ {made}, made ∈ copies →
    state.words made.page = start.words (pageOf made.original.pa)
  distinct : (copies.map (·.page)).Nodup
  fresh : ∀ {made}, made ∈ copies →
    made.page ∉ held ∧ ¬ InTable state.pages cm.pagetable made.page
  parent : state.mm p = some pm
  memory : ∀ {q}, q ∈ held → state.words q = start.words q
  table : ∀ x, translation state.pages pm.pagetable x = translation start.pages pm.pagetable x
  isolated : ∀ {stores : List (Store Task)},
    (∀ store ∈ stores, store.task = c ∨ store.task = p) → ∀ x,
      userLoad (runStores state stores) p x =
        userLoad (runStores state (stores.filter (·.task = p))) p x ∧
      userLoad (runStores state stores) c x =
        userLoad (runStores state (stores.filter (·.task = c))) c x

section
variable {heldByChild : List Nat} (different : c ≠ p)
  (holds : Holds stop start.mem.pages lists free)
  (parent : Parent lists start p pm held) (child : Child lists start c cm heldByChild)
include holds parent

variable {q : Nat}

omit [DecidableEq Task] in
theorem Parent.notFree (isHeld : q ∈ held) : q ∉ free := by
  intro isFree
  cases holds.threaded.once parent.pages holds.isFree isHeld isFree

include child different

omit [DecidableEq Task] in
theorem Parent.notTable (isHeld : q ∈ held) :
    ¬ InTable start.pages cm.pagetable q := by
  intro inTable
  rw [child.onlyRoot inTable] at isHeld
  cases holds.threaded.once parent.pages child.pages isHeld child.root
  exact different rfl

variable (copied : Copied stop live start free c cm copies state used rest)
include copied

theorem Copied.memory (isHeld : q ∈ held) : state.words q = start.words q := by
  refine copied.grown.frame (parent.notTable different holds child isHeld) fun isUsed => ?_
  apply parent.notFree holds isHeld
  rw [copied.grown.free_eq]
  exact mem_append_left _ isUsed

theorem Copied.sameMap : SameMap start state p := by
  constructor
  · rw [copied.mm, update_of_ne different.symm]
  · rintro q ⟨mm, isMm, inTable⟩
    rw [parent.mm] at isMm
    cases isMm
    exact copied.memory different holds parent child (parent.table inTable)

omit different child in
theorem Copied.fresh {made : Copy} (isMade : made ∈ copies) :
    made.page ∉ held ∧ ¬ InTable state.pages cm.pagetable made.page := by
  have sound := copied.sound isMade
  refine ⟨fun isHeld => parent.notFree holds isHeld ?_, sound.notTable⟩
  rw [copied.grown.free_eq]
  exact mem_append_left _ sound.isUsed

theorem Copied.not_tablePage (isHeld : q ∈ held) : ¬ TablePage state c q := by
  rintro ⟨mm, isMm, inTable⟩
  rw [copied.mm, update_self] at isMm
  cases isMm
  rcases copied.grown.inTable inTable with before | isUsed
  · exact parent.notTable different holds child isHeld before
  · apply parent.notFree holds isHeld
    rw [copied.grown.free_eq]
    exact mem_append_left _ isUsed

variable (originals : copies.map (·.original) = pm.vmas)
  (space : Space stop live (slotPage start.mem) start.pages free pm.pagetable)
include originals space

theorem Copied.apart : Apart state c p := by
  have sameMap := copied.sameMap different holds parent child
  have isCopy : ∀ {q}, UserPage state c q →
      q ∉ held ∧ ¬ InTable state.pages cm.pagetable q := by
    intro q isUser
    rcases userPage_copy copied originals space parent.maps
      (fun v isVma => (parent.vma isVma).1) isUser with ⟨made, isMade, rfl⟩
    exact copied.fresh holds parent isMade
  constructor
  · rintro q isUser ⟨mm, isMm, inTable⟩
    rw [copied.mm, update_self] at isMm
    cases isMm
    exact (isCopy isUser).2 inTable
  · intro q isUser isTable
    rw [sameMap.tablePage_iff] at isTable
    rcases isTable with ⟨mm, isMm, inTable⟩
    rw [parent.mm] at isMm
    cases isMm
    exact (isCopy isUser).1 (parent.table inTable)
  · intro q isUser isOther
    exact (isCopy isUser).1 (parent.users (sameMap.userPage_iff.mp isOther)).1

theorem Copied.apart_parent : Apart state p c := by
  have sameMap := copied.sameMap different holds parent child
  have apart := copied.apart different holds parent child originals space
  constructor
  · intro q isUser isTable
    rw [sameMap.tablePage_iff] at isTable
    rcases isTable with ⟨mm, isMm, inTable⟩
    rw [parent.mm] at isMm
    cases isMm
    exact (parent.users (sameMap.userPage_iff.mp isUser)).2 inTable
  · intro q isUser
    exact copied.not_tablePage different holds parent child
      (parent.users (sameMap.userPage_iff.mp isUser)).1
  · intro q isUser isOther
    exact apart.otherPage isOther isUser

theorem Copied.forked : Forked start state c p pm held
    { cm with vmas := copies.map (·.copy) } copies := by
  have fits : ∀ v ∈ pm.vmas, v.OnePage := fun v isVma => (parent.vma isVma).1
  have mirrors : ∀ made ∈ copies, made.Mirrors := fun made isMade => (copied.sound isMade).mirrors
  have sameMap := copied.sameMap different holds parent child
  have apart := copied.apart different holds parent child originals space
  have back := copied.apart_parent different holds parent child originals space
  have sameTable : SameTable pm.pagetable start state := sameMap.sameTable parent.mm
  refine {
    child := by rw [copied.mm, update_self]
    vmas := rfl
    originals := originals.symm
    mirrors := fun isMade => mirrors _ isMade
    sees := ?_
    contents := fun isMade => (copied.sound isMade).words
    distinct := copied.nodup
    fresh := fun isMade => copied.fresh holds parent isMade
    parent := sameMap.mm.trans parent.mm
    memory := fun isHeld => copied.memory different holds parent child isHeld
    table := ?_
    isolated := fun tasks x => ⟨apart.userLoad_eq back tasks x,
      back.userLoad_eq apart (fun store isStore => (tasks store isStore).symm) x⟩ }
  · intro x v isVma
    rw [← originals, vmaOf_originals mirrors, Option.map_eq_some_iff] at isVma
    rcases isVma with ⟨made, isCopy, rfl⟩
    have isMade : made ∈ copies := mem_reverse.mp (mem_of_find?_eq_some isCopy)
    have mirror := mirrors made isMade
    refine ⟨made, isMade, rfl, ?_⟩
    rw [← mirror.pa, ← mirror.va, ← mirror.attr]
    exact translation_copy copied originals space parent.maps fits isCopy
  · intro x
    have pool : Pool stop live (slotPage state.mem) state.pages rest := copied.grown.stocked.pool
    have fewer : rest ⊆ free := by
      rw [copied.grown.free_eq]
      exact subset_append_right used rest
    rw [(sameTable.space space pool fewer).translation_eq, space.translation_eq,
      sameTable.leafOf_eq (show (indices x).length ≤ 3 from Nat.le_refl 3)]

end

section
variable {heldByChild : List Nat} (different : c ≠ p)
  (holds : Holds stop start.mem.pages lists free)
  (slotted : Slotted kernelSlots stop start.mem lists)
  (parent : Parent lists start p pm held) (child : Child lists start c cm heldByChild)
include holds slotted child

omit [DecidableEq Task] in
theorem stocked_child : Stocked stop (fun t => t = c) start free := by
  refine ⟨lists, holds, slotted, ?_⟩
  rintro t rfl
  rw [child.pages]
  rfl

include different parent

theorem copyPagetable_copies : YieldsOr (copyPagetable c p) start
    (Stops free (4 * pm.vmas.length) start.mem pm.vmas.length) fun _ state =>
      ∃ copies used rest, copies.map (·.original) = pm.vmas ∧
        Copied stop (fun t => t = c) start free c cm copies state used rest := by
  have stocked := stocked_child holds slotted child
  have ran : mmOf p start = .ok (pm, start) := by
    rw [mmOf, parent.mm]
  have copyable : ∀ v ∈ pm.vmas, v.OnePage ∧ ∃ q, v.pa = paddr q ∧ q < NPAGE ∧ q ∉ free ∧
      ¬ InTable start.pages cm.pagetable q := by
    intro v isVma
    rcases parent.vma isVma with ⟨onePage, q, isHeld, isPage⟩
    exact ⟨onePage, q, isPage, (holds.usable parent.pages isHeld).1, parent.notFree holds isHeld,
      parent.notTable different holds child isHeld⟩
  have loop := @Copied.copyVmas _ stop (fun t => t = c) start free c cm _ rfl
    (holds.threaded.nodup holds.isFree) pm.vmas copyable [] start [] free
    (child.copied holds stocked)
  rw [length_nil, Nat.zero_add] at loop
  rw [copyPagetable]
  exact yieldsOr_bind_of_ok ran loop

/-- With enough pages, and not enough vmas left for the copies, the call panics. -/
theorem copyPagetable_exhausts (enough : 4 * pm.vmas.length ≤ free.length)
    (few : slotsMax .vmaSlot < slotsInUse start.mem .vmaSlot + pm.vmas.length) :
    copyPagetable c p start = .error (.panic "alloc_vma_slot: slot exhausted") := by
  have copies := copyPagetable_copies different holds slotted parent child
  rw [YieldsOr] at copies
  cases outcome : copyPagetable c p start with
  | error fault =>
    rw [outcome] at copies
    cases copies with
    | memory tooFew => exact absurd tooFew (Nat.not_lt.mpr enough)
    | slots => rfl
  | ok result =>
    rw [outcome] at copies
    rcases copies with ⟨copies, used, rest, originals, copied⟩
    rcases copied.grown.stocked with ⟨_, _, slottedAfter, _⟩
    have inUse := @slotsInUse_le _ stop _ .vmaSlot _ slottedAfter
    rw [copied.slots, ← length_map (·.original), originals] at inUse
    omega

end

/-- Fork copies the memory of the parent and isolates it, if there are enough pages and vmas. -/
theorem copyPagetable_forks {heldByChild : List Nat} (different : c ≠ p)
    (holds : Holds stop start.mem.pages lists free)
    (slotted : Slotted kernelSlots stop start.mem lists)
    (parent : Parent lists start p pm held) (child : Child lists start c cm heldByChild) :
    YieldsOr (copyPagetable c p) start
      (Stops free (4 * pm.vmas.length) start.mem pm.vmas.length) fun _ state =>
        ∃ mm copies, Forked start state c p pm held mm copies := by
  refine (copyPagetable_copies different holds slotted parent child).mono ?_ fun _ => id
  rintro _ state ⟨copies, used, rest, originals, copied⟩
  exact ⟨_, copies, copied.forked different holds parent child originals
    (parent.space holds (stocked_child holds slotted child))⟩

/-! ## A parent with one page

The vmas of the parent are all for its page, so that a later one wins. -/

theorem exists_taken {pages : Pages Task (Nat → Chunk SlotName)} {list : List Nat} {page : Nat}
    {t : Task} (holds : Holds stop pages lists (page :: free))
    (isList : lists (some t) = some list) :
    ∃ (after : Pages Task (Nat → Chunk SlotName)) (lists' : Mem.Lists Task),
      Holds stop after lists' free ∧ lists' (some t) = some (list ++ [page]) ∧
        ∀ u, u ≠ t → lists' (some u) = lists (some u) := by
  rcases @Holds.allocPageForTask _ _ _ stop pages lists free list Memory.zeroPage page t holds
    isList with ⟨after, _, holdsAfter, _⟩
  refine ⟨after, _, holdsAfter, update_self _ _ _, fun u other => ?_⟩
  rw [update_of_ne fun equal => other (Option.some.inj equal), update_of_ne (by rintro ⟨⟩)]

theorem exists_held : ∃ (pages : Pages Bool (Nat → Chunk SlotName)) (lists : Mem.Lists Bool)
    (rest : List Nat) (root upper lower page child : Nat), Holds PHY_MEMORY pages lists rest ∧
      lists (some true) = some [root, upper, lower, page] ∧ lists (some false) = some [child] ∧
      960 ≤ rest.length := by
  rcases @initMemory_holds Bool (Nat → Chunk SlotName) _ PHY_MEMORY (fun _ => Memory.zeroPage) with
    ⟨pages, _, holds⟩
  have allFree : freePages PHY_MEMORY NPAGE = List.range NPAGE := by
    refine filter_eq_self.mpr ?_
    intro p _
    simp [Pages.reserved, alignUp, PHY_MEMORY, PGSIZE]
  rw [allFree] at holds
  have enough : (List.range NPAGE).length = 131072 := length_range
  have tasks := (holds.listInit true).listInit false
  rcases isFree : List.range NPAGE with
    _ | ⟨root, _ | ⟨upper, _ | ⟨lower, _ | ⟨page, _ | ⟨child, rest⟩⟩⟩⟩⟩
  all_goals rw [isFree] at enough tasks
  all_goals simp only [length_nil, length_cons] at enough
  all_goals try exact absurd enough (by decide)
  rcases exists_taken tasks (t := true) rfl with ⟨_, _, first, own1, other1⟩
  rcases exists_taken first own1 with ⟨_, _, second, own2, other2⟩
  rcases exists_taken second own2 with ⟨_, _, third, own3, other3⟩
  rcases exists_taken third own3 with ⟨_, _, fourth, own4, other4⟩
  have childList := other4 false (by decide)
  rw [other3 false (by decide), other2 false (by decide), other1 false (by decide)] at childList
  rcases exists_taken fourth (childList.trans rfl) with ⟨pages, lists, fifth, own5, other5⟩
  refine ⟨pages, lists, rest, root, upper, lower, page, child, fifth, ?_, own5, by omega⟩
  rw [other5 true (by decide), own4]
  rfl

def onePageWords (root upper lower page : Nat) : Nat → Words := fun q index =>
  if index = 0 then
    if q = root then tablePte upper
    else if q = upper then tablePte lower
    else if q = lower then leafPte (paddr page) (PTE_R ||| PTE_W ||| PTE_U)
    else 0
  else 0

section
variable {root upper lower page : Nat} (nodup : [root, upper, lower, page].Nodup)
  (upperInMemory : upper < NPAGE) (lowerInMemory : lower < NPAGE)
include upperInMemory lowerInMemory

theorem reads_onePageWords (q index : Nat) :
    readEntry (onePageWords root upper lower page q index) =
      if q = root ∧ index = 0 then .table upper else if q = upper ∧ index = 0 then .table lower
      else if q = lower ∧ index = 0 then .leaf else .absent := by
  have leaf : readEntry (leafPte (paddr page) (PTE_R ||| PTE_W ||| PTE_U)) = .leaf :=
    readEntry_leafPte _ (by decide)
  rw [onePageWords]
  by_cases first : index = 0
  · simp only [first, and_true, if_true]
    split
    · exact readEntry_tablePte upperInMemory
    · split
      · exact readEntry_tablePte lowerInMemory
      · split
        · exact leaf
        · rfl
  · simp only [first, and_false, if_false]
    rfl

include nodup

theorem follow_onePageWords {path : List Nat} {place : Nat} (short : path.length < 3)
    (reaches : Radix.follow readEntry (onePageWords root upper lower page) root path = some place) :
    (path = [] ∧ place = root) ∨ (path = [0] ∧ place = upper) ∨ (path = [0, 0] ∧ place = lower) := by
  have reads := @reads_onePageWords root upper lower page upperInMemory lowerInMemory
  have different : upper ≠ root := by
    rintro rfl
    simp at nodup
  rcases path with _ | ⟨i, _ | ⟨j, _ | ⟨k, path⟩⟩⟩
  · cases reaches
    exact .inl ⟨rfl, rfl⟩
  · by_cases isFirst : i = 0
    · subst isFirst
      simp only [Radix.follow, reads, and_self, if_true] at reaches
      cases reaches
      exact .inr (.inl ⟨rfl, rfl⟩)
    · simp only [Radix.follow, reads, isFirst, and_false, if_false] at reaches
      cases reaches
  · by_cases isFirst : i = 0
    · subst isFirst
      by_cases isNext : j = 0
      · subst isNext
        simp only [Radix.follow, reads, different, and_self, and_true, if_true, if_false] at reaches
        cases reaches
        exact .inr (.inr ⟨rfl, rfl⟩)
      · simp only [Radix.follow, reads, isNext, and_self, and_false, if_true, if_false] at reaches
        cases reaches
    · simp only [Radix.follow, reads, isFirst, and_false, if_false] at reaches
      cases reaches
  · simp only [length_cons] at short
    omega

theorem lookup_onePageWords {path : List Nat} (length : path.length = 3) :
    Radix.lookup readEntry (onePageWords root upper lower page) root path =
      if path = [0, 0, 0] then some (leafPte (paddr page) (PTE_R ||| PTE_W ||| PTE_U), [])
      else none := by
  have reads := @reads_onePageWords root upper lower page upperInMemory lowerInMemory
  have notRoot : upper ≠ root := by
    rintro rfl
    simp at nodup
  have lowerNotRoot : lower ≠ root := by
    rintro rfl
    simp at nodup
  have lowerNotUpper : lower ≠ upper := by
    rintro rfl
    simp at nodup
  obtain ⟨i, j, k, rfl⟩ := length_eq_three.mp length
  by_cases isFirst : i = 0
  · by_cases isNext : j = 0
    · by_cases isLast : k = 0
      · subst isFirst isNext isLast
        simp only [Radix.lookup, reads, notRoot, lowerNotRoot, lowerNotUpper, and_self, and_true,
          if_true, if_false]
        simp [onePageWords, lowerNotRoot, lowerNotUpper]
      · simp [Radix.lookup, reads, isFirst, isNext, isLast, notRoot, lowerNotRoot, lowerNotUpper]
    · simp [Radix.lookup, reads, isFirst, isNext]
  · simp [Radix.lookup, reads, isFirst]

theorem tree_onePageWords :
    Radix.Tree readEntry (onePageWords root upper lower page) root 3 := by
  have places := @follow_onePageWords _ _ _ _ nodup upperInMemory lowerInMemory
  simp only [nodup_cons, mem_cons, not_or] at nodup
  constructor
  intro path other place shortPath shortOther reachesPath reachesOther
  rcases places shortPath reachesPath with ⟨rfl, rfl⟩ | ⟨rfl, rfl⟩ | ⟨rfl, rfl⟩ <;>
    rcases places shortOther reachesOther with ⟨rfl, same⟩ | ⟨rfl, same⟩ | ⟨rfl, same⟩ <;>
    first
      | rfl
      | exact absurd same (by tauto)

end

def onePageParent (root page count : Nat) : TaskMm where
  obj := (0, 0)
  pagetable := root
  vmas := replicate count
    ⟨(0, 0), 0, paddr page, BitVec.ofNat 64 PGSIZE, .DATA, PTE_R ||| PTE_W ||| PTE_U⟩
  nextHeap := 0

def newChild (child : Nat) : TaskMm := ⟨(0, 0), child, [], 0⟩

def onePageState (mem : Memory Bool SlotName) (root upper lower page child count : Nat) :
    VmState Bool where
  mem := mem
  words := onePageWords root upper lower page
  mm t := if t then some (onePageParent root page count) else some (newChild child)

theorem exists_slotted {pages : Pages Bool (Nat → Chunk SlotName)} {lists : Mem.Lists Bool}
    (holds : Holds stop pages lists free) (count : Nat) (few : count ≤ slotsMax .vmaSlot)
    (enough : count ≤ free.length) : ∃ (mem : Memory Bool SlotName) (lists' : Mem.Lists Bool)
      (rest : List Nat), Holds stop mem.pages lists' rest ∧ Slotted kernelSlots stop mem lists' ∧
        slotsInUse mem .vmaSlot = count ∧ (∀ t, lists' (some t) = lists (some t)) ∧
        free.length ≤ rest.length + count := by
  induction count with
  | zero =>
    refine ⟨⟨pages, fun _ _ => ⟨0, none⟩⟩, lists, free, holds,
      ⟨⟨fun _ => rfl, ?_, ?_, ?_⟩, fun _ => iff_of_true rfl rfl⟩,
      Finset.sum_eq_zero fun _ _ => rfl, fun _ => rfl, Nat.le_refl _⟩
    · rintro name cur p i _ ⟨⟩
    · rintro name cur p _ ⟨⟩
    · rintro name name' cur cur' p _ _ ⟨⟩
  | succ count induction =>
    rcases induction (by omega) (by omega) with ⟨mem, lists', rest, held, slotted, inUse, same, left⟩
    have ends := slotted.allocSlot held .vmaSlot
    generalize mem.allocSlot kernelSlots .vmaSlot = outcome at ends
    cases ends with
    | noMemory empty => rw [empty, length_nil] at left; omega
    | exhausted full => rw [slotsInUse_full full] at inUse; omega
    | @found obj after lists'' rest' done =>
      refine ⟨after, lists'', rest', done.holds, done.slotted, ?_, fun t => ?_, ?_⟩
      · rw [slotsInUse_allocated done, inUse]
      · rcases done.lists with ⟨_, isSame⟩ | ⟨_, isUpdate⟩
        · rw [isSame, same]
        · rw [isUpdate, update_of_ne (by rintro ⟨⟩), same]
      · rcases done.lists with ⟨isSame, _⟩ | ⟨isCons, _⟩
        · rw [isSame]
          omega
        · rw [isCons, length_cons] at left
          omega

section
variable {mem : Memory Bool SlotName} {lists : Mem.Lists Bool}
  {root upper lower page child count : Nat}

variable (holds : Holds PHY_MEMORY mem.pages lists rest)
  (slotted : Slotted kernelSlots PHY_MEMORY mem lists)
  (parentList : lists (some true) = some [root, upper, lower, page])
include holds slotted parentList

theorem parent_onePage : Parent lists (onePageState mem root upper lower page child count) true
    (onePageParent root page count) [root, upper, lower, page] := by
  have nodup := holds.threaded.nodup parentList
  have inMemory : ∀ q ∈ [root, upper, lower, page], q < NPAGE := fun q isHeld =>
    (holds.usable parentList isHeld).1
  have upperInMemory := inMemory upper (by simp)
  have lowerInMemory := inMemory lower (by simp)
  have pageInMemory := inMemory page (by simp)
  have places := @follow_onePageWords _ _ _ _ nodup upperInMemory lowerInMemory
  have leaf : ∀ x, leafOf (onePageState mem root upper lower page child count).pages root (indices x) =
      if indices x = [0, 0, 0] then some (leafPte (paddr page) (PTE_R ||| PTE_W ||| PTE_U), [])
      else none :=
    fun x => lookup_onePageWords nodup upperInMemory lowerInMemory rfl
  have tree := tree_onePageWords nodup upperInMemory lowerInMemory
  have isFlags : IsFlags (PTE_R ||| PTE_W ||| PTE_U) := by decide
  have table : ∀ {q}, InTable (onePageState mem root upper lower page child count).pages root q →
      q ∈ [root, upper, lower] := by
    rintro q ⟨path, short, reaches⟩
    rcases places short reaches with ⟨_, rfl⟩ | ⟨_, rfl⟩ | ⟨_, rfl⟩ <;> simp
  have stocked : Stocked PHY_MEMORY (fun _ => False)
      (onePageState mem root upper lower page child count) rest :=
    ⟨lists, holds, slotted, fun _ isLive => isLive.elim⟩
  have space : Space PHY_MEMORY (fun _ => False)
      (slotPage (onePageState mem root upper lower page child count).mem)
      (onePageState mem root upper lower page child count).pages rest root := by
    refine ⟨stocked.pool, tree, fun {q} inTable => ?_⟩
    have isHeld : q ∈ [root, upper, lower, page] := mem_append_left [page] (table inTable)
    refine ⟨inMemory q isHeld, fun isFree => ?_⟩
    cases holds.threaded.once parentList holds.isFree isHeld isFree
  refine {
    mm := rfl
    pages := parentList
    tree := tree
    table := fun inTable => mem_append_left [page] (table inTable)
    vma := ?_
    maps := ?_
    users := ?_ }
  · intro v isVma
    rw [eq_of_mem_replicate isVma]
    exact ⟨⟨rfl, rfl, show 0 + PGSIZE ≤ VA_TOP by decide⟩, page, by simp, rfl⟩
  · intro x v isVma
    have isHere := find?_some isVma
    rw [eq_of_mem_replicate (mem_reverse.mp (mem_of_find?_eq_some isVma))] at isHere ⊢
    have bound : (rangeEnd 0 (BitVec.ofNat 64 PGSIZE) .S_PAGE).toNat =
        0 + Granularity.S_PAGE.delta := by decide
    have small : x.toNat < 0 + Granularity.S_PAGE.delta := by
      rw [← bound]
      exact (of_decide_eq_true isHere).2
    have path : indices x = [0, 0, 0] := by
      simp only [Granularity.delta, PGSIZE] at small
      simp only [indices, vaLevel_eq, PGSIZE, List.cons.injEq, and_true]
      omega
    show translation _ root x = .ok (paddr page + (x - 0), _)
    rcases paddr_mappable pageInMemory with ⟨paAligned, paBelow⟩
    have address : (frame (leafPte (paddr page) (PTE_R ||| PTE_W ||| PTE_U)) |||
        (x &&& BitVec.ofNat 64 (PGSIZE - 1))) = paddr page + (x - 0) := by
      rw [← @rangePte_first 0 _ _ _ _ small]
      refine translated_rangePte rfl paAligned (Nat.zero_le _) ?_ isFlags
      simp only [Granularity.delta, PGSIZE, PHY_TOP, PHY_MEMORY, PHY_SIZE] at small paBelow
      omega
    rw [space.translation_eq, leaf, if_pos path]
    simp only [translated, address, Option.map_some, flagsOf_leafPte isFlags]
  · intro q isUser
    rcases isUser.exists_leaf rfl with ⟨x, found, walked, isLeaf, isPhysical, isPage⟩
    rw [show (onePageParent root page count).pagetable = root from rfl, leaf] at isLeaf
    split at isLeaf
    case isFalse => cases isLeaf
    case isTrue =>
      cases isLeaf
      rw [← isPage, pageOf_physical pageInMemory isFlags isPhysical]
      refine ⟨by simp, fun inTable => ?_⟩
      have isTable := table inTable
      simp only [nodup_cons, mem_cons, not_or] at nodup isTable
      tauto

end

theorem exists_parent (count : Nat) (few : count ≤ slotsMax .vmaSlot) :
    ∃ (start : VmState Bool) (pm cm : TaskMm) (held heldByChild rest : List Nat)
      (lists : Mem.Lists Bool), Holds PHY_MEMORY start.mem.pages lists rest ∧
      Slotted kernelSlots PHY_MEMORY start.mem lists ∧ Parent lists start true pm held ∧
      Child lists start false cm heldByChild ∧ pm.vmas.length = count ∧ 4 * count ≤ rest.length ∧
      slotsInUse start.mem .vmaSlot = count := by
  have small : slotsMax .vmaSlot = 192 := by decide
  rcases exists_held with ⟨pages, before, free, root, upper, lower, page, child, unslotted,
    isParent, isChild, enough⟩
  rcases exists_slotted unslotted count few (by omega) with
    ⟨mem, lists, rest, holds, slotted, inUse, same, left⟩
  have parentList := (same true).trans isParent
  have childList := (same false).trans isChild
  have notHeld : child ∉ [root, upper, lower, page] := by
    intro isHeld
    cases holds.threaded.once parentList childList isHeld mem_cons_self
  simp only [mem_cons, not_or] at notHeld
  refine ⟨onePageState mem root upper lower page child count, onePageParent root page count,
    newChild child, _, [child], rest, lists, holds, slotted,
    parent_onePage holds slotted parentList, ⟨rfl, childList, rfl, mem_cons_self, fun index => ?_⟩,
    length_replicate, by omega, inUse⟩
  show onePageWords root upper lower page child index = 0
  simp [onePageWords, notHeld]

theorem copyPagetable_forks_twoVmas :
    ∃ (start state : VmState Bool) (pm mm : TaskMm) (held : List Nat) (copies : List Copy),
      pm.vmas.length = 2 ∧ copyPagetable false true start = .ok ((), state) ∧
        Forked start state false true pm held mm copies := by
  rcases exists_parent 2 (by decide) with
    ⟨start, pm, cm, held, _, rest, lists, holds, slotted, parent, child, two, enough, inUse⟩
  have forks := copyPagetable_forks (by decide) holds slotted parent child
  have noExcuse : ∀ fault, ¬ Stops rest (4 * pm.vmas.length) start.mem pm.vmas.length fault := by
    intro fault stops
    rw [two] at stops
    cases stops with
    | memory few => exact absurd few (by omega)
    | slots full =>
      rw [inUse] at full
      exact absurd full (by decide)
  rcases forks.yields noExcuse with ⟨_, state, ran, mm, copies, forked⟩
  exact ⟨start, state, pm, mm, held, copies, two, ran, forked⟩

/-- The parent has 97 of the 192 vmas. -/
theorem copyPagetable_panics : ∃ (start : VmState Bool) (pm cm : TaskMm)
    (held heldByChild rest : List Nat) (lists : Mem.Lists Bool),
      Holds PHY_MEMORY start.mem.pages lists rest ∧ Slotted kernelSlots PHY_MEMORY start.mem lists ∧
      Parent lists start true pm held ∧ Child lists start false cm heldByChild ∧
      4 * pm.vmas.length ≤ rest.length ∧
      copyPagetable false true start = .error (.panic "alloc_vma_slot: slot exhausted") := by
  rcases exists_parent 97 (by decide) with ⟨start, pm, cm, held, heldByChild, rest, lists, holds,
    slotted, parent, child, many, enough, inUse⟩
  have pages : 4 * pm.vmas.length ≤ rest.length := by omega
  refine ⟨start, pm, cm, held, heldByChild, rest, lists, holds, slotted, parent, child, pages, ?_⟩
  refine copyPagetable_exhausts (by decide) holds slotted parent child pages ?_
  rw [many, inUse]
  decide

end Tnix.Vm
