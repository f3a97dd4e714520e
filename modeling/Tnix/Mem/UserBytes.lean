import Mathlib.Data.List.GetD
import Tnix.Foundation.Terminated
import Tnix.Mem.Translation
import Tnix.Mem.UserCopy

/-! # The bytes of the user

`copy_to_user`, `copy_from_user` and `argstr` with the bytes that they read and write. -/

namespace Tnix.Vm

open Mem Program
variable {Task : Type}

/-! ## Page tables -/

/-- A page table: every walk ends, and the pages of the user are frames of the memory. -/
structure PageTable (Task : Type) where
  pages : Pages Task Words
  root : Nat
  walks : ∀ x, ∃ result, vaToPa root x pages = .ok (result, pages)
  inMemory : ∀ x paddr pte, vaToPa root x pages = .ok ((paddr, some pte), pages) →
    pte &&& PTE_U.setWidth 64 ≠ 0 → PHY_MEMORY ≤ paddr.toNat ∧ paddr.toNat < PHY_TOP

theorem getPteFrom_congr {x y : U64} (same : x.toNat / PGSIZE = y.toNat / PGSIZE) (level : Nat) :
    ∀ cur, @getPteFrom Task x level cur = getPteFrom y level cur := by
  have levels (level : Nat) : vaLevel x level = vaLevel y level := by
    rw [vaLevel_eq, vaLevel_eq, same]
  induction level with
  | zero => simp only [getPteFrom, levels, implies_true]
  | succ level induction => simp only [getPteFrom, levels, induction, implies_true]

theorem vaToPa_page {root : Nat} {pages : Pages Task Words} {x y : U64}
    (same : x.toNat / PGSIZE = y.toNat / PGSIZE) :
    vaToPa root x pages = (vaToPa root y pages).map fun result =>
      ((result.1.2.elim 0 fun pte => frame pte ||| (x &&& BitVec.ofNat 64 (PGSIZE - 1)),
        result.1.2), result.2) := by
  simp only [vaToPa, getPte, getPteFrom_congr same, bind_eq]
  cases getPteFrom y 2 root pages with
  | error => rfl
  | ok result =>
    rcases result with ⟨_ | place, pages⟩
    · rfl
    · simp only [bind_eq]
      cases readPte place.1 place.2 pages with
      | error => rfl
      | ok found => by_cases leaf : isLeaf found.1 = true <;> simp only [leaf] <;> rfl

namespace PageTable

variable (table : PageTable Task) {x y : U64} {pte needs : U64}

def entry (x : U64) : Option U64 :=
  match vaToPa table.root x table.pages with
  | .ok ((_, pte), _) => pte
  | .error _ => none

def physical (x : U64) : Nat :=
  match vaToPa table.root x table.pages with
  | .ok ((paddr, _), _) => paddr.toNat
  | .error _ => 0

def Grants (needs x : U64) : Prop := ∃ pte, table.entry x = some pte ∧ pte &&& needs = needs

def pageNumber (x : U64) : Nat := x.toNat / PGSIZE % 2 ^ 27

/-- Distinct pages of the user are in distinct frames. -/
def Distinct : Prop := ∀ x y pte pte', table.entry x = some pte → table.entry y = some pte' →
  pte &&& PTE_U.setWidth 64 ≠ 0 → pte' &&& PTE_U.setWidth 64 ≠ 0 →
    frame pte = frame pte' → pageNumber x = pageNumber y

theorem vaToPa_eq (x : U64) : ∃ paddr, vaToPa table.root x table.pages =
    .ok ((paddr, table.entry x), table.pages) ∧ table.physical x = paddr.toNat := by
  rcases table.walks x with ⟨⟨paddr, pte⟩, ran⟩
  exact ⟨paddr, by rw [entry, ran], by rw [physical, ran]⟩

variable {table}

theorem entry_page (same : x.toNat / PGSIZE = y.toNat / PGSIZE) :
    table.entry x = table.entry y := by
  rw [entry, entry, vaToPa_page same]
  cases vaToPa table.root y table.pages <;> rfl

theorem frame_aligned (pte : U64) : (frame pte).toNat % PGSIZE = 0 := by
  rw [frame, toNat_frame, Nat.mul_mod_left]
  exact Nat.lt_of_le_of_lt Nat.and_le_right (by decide)

theorem physical_eq (isEntry : table.entry x = some pte) :
    table.physical x = (frame pte).toNat + x.toNat % PGSIZE := by
  rcases table.vaToPa_eq x with ⟨paddr, ran, isPhysical⟩
  have again := @vaToPa_page _ table.root table.pages x x rfl
  simp only [ran, isEntry, Except.map, Option.elim, Except.ok.injEq, Prod.mk.injEq, and_true] at again
  rw [isPhysical, again, toNat_or_offset (frame_aligned pte)]

theorem entry_add {i : Nat} (inPage : x.toNat % PGSIZE + i < PGSIZE) :
    table.entry (x + BitVec.ofNat 64 i) = table.entry x ∧
      (table.entry x ≠ none →
        table.physical (x + BitVec.ofNat 64 i) = table.physical x + i) := by
  have small := x.isLt
  have sum : (x + BitVec.ofNat 64 i).toNat = x.toNat + i := by
    simp only [PGSIZE] at inPage
    rw [BitVec.toNat_add, BitVec.toNat_ofNat]
    omega
  have same : table.entry (x + BitVec.ofNat 64 i) = table.entry x := by
    refine entry_page ?_
    rw [sum]
    simp only [PGSIZE] at inPage ⊢
    omega
  refine ⟨same, fun isThere => ?_⟩
  rcases Option.ne_none_iff_exists'.mp isThere with ⟨pte, isEntry⟩
  rw [physical_eq (same.trans isEntry), physical_eq isEntry, sum]
  simp only [PGSIZE] at inPage ⊢
  omega

omit table in
theorem user_of_permits (isUser : needs &&& PTE_U.setWidth 64 ≠ 0) (permits : pte &&& needs = needs) :
    pte &&& PTE_U.setWidth 64 ≠ 0 := by
  intro noUser
  rw [← permits, BitVec.and_comm pte, BitVec.and_assoc, noUser] at isUser
  exact isUser BitVec.and_zero

theorem Grants.physical_inMemory (grants : table.Grants needs x)
    (isUser : needs &&& PTE_U.setWidth 64 ≠ 0) :
    PHY_MEMORY ≤ table.physical x ∧ table.physical x < PHY_TOP := by
  rcases grants with ⟨pte, isEntry, permits⟩
  rcases table.vaToPa_eq x with ⟨paddr, ran, isPhysical⟩
  rw [isEntry] at ran
  rw [isPhysical]
  exact table.inMemory x paddr pte ran (user_of_permits isUser permits)

theorem test_iff (isUser : needs &&& PTE_U.setWidth 64 ≠ 0) {paddr : U64}
    (isPhysical : table.physical x = paddr.toNat) :
    paddr = 0 ∨ (table.entry x).getD 0 &&& needs ≠ needs ↔ ¬ table.Grants needs x := by
  constructor
  · rintro (rfl | differs) grants
    · have inMemory := (grants.physical_inMemory isUser).1
      rw [isPhysical] at inMemory
      exact absurd inMemory (by decide)
    · rcases grants with ⟨pte, isEntry, permits⟩
      rw [isEntry] at differs
      exact differs permits
  · intro notGranted
    by_contra passes
    rw [not_or, not_not] at passes
    cases isEntry : table.entry x with
    | none =>
      rw [isEntry, Option.getD_none, show (0 : U64) &&& needs = 0 from BitVec.zero_and] at passes
      exact isUser (passes.2 ▸ BitVec.zero_and)
    | some pte => exact notGranted ⟨pte, isEntry, by rw [isEntry] at passes; exact passes.2⟩

end PageTable

/-! ## The copies -/

inductive Ending
  | returned
  | killed
  | fault
  deriving DecidableEq

/-- The loop of both copies, with the physical addresses of the user's bytes in the order of
the copy. Each chunk has at least one byte, so `fuel = pend` is enough. -/
def copyFrom (table : PageTable Task) (needs : U64) : Nat → U64 → Nat → List Nat × Ending
  | 0, _, _ => ([], .returned)
  | fuel + 1, user, pend =>
    if pend = 0 then ([], .returned)
    else
      let len := min (BitVec.ofNat 64 (alignUp (user + 1).toNat PGSIZE) - user).toNat pend
      match vaToPa table.root user table.pages with
      | .error _ => ([], .fault)
      | .ok ((paddr, pte), _) =>
        if paddr = 0 ∨ pte.getD 0 &&& needs ≠ needs then ([], .killed)
        else
          let rest := copyFrom table needs fuel (user + BitVec.ofNat 64 len) (pend - len)
          ((List.range len).map (paddr.toNat + ·) ++ rest.1, rest.2)

def store (memory : Nat → UInt8) : List Nat → List UInt8 → Nat → UInt8
  | address :: addresses, byte :: bytes =>
    store (Function.update memory address byte) addresses bytes
  | _, _ => memory

/-- What a copy leaves: the memory, the bytes delivered to the kernel, and the addresses of
the user's bytes that it read or wrote. -/
structure CopyOutcome where
  ending : Ending
  memory : Nat → UInt8
  delivered : List UInt8
  touched : List Nat

def toWrite : U64 := (PTE_W ||| PTE_U).setWidth 64

def toRead : U64 := (PTE_R ||| PTE_U).setWidth 64

def copyToUser (table : PageTable Task) (memory : Nat → UInt8) (udst : U64)
    (ksrc : List UInt8) : CopyOutcome :=
  let copied := copyFrom table toWrite ksrc.length udst ksrc.length
  ⟨copied.2, store memory copied.1 ksrc, [], copied.1⟩

def copyFromUser (table : PageTable Task) (memory : Nat → UInt8) (usrc : U64)
    (bytes : Nat) : CopyOutcome :=
  let copied := copyFrom table toRead bytes usrc bytes
  ⟨copied.2, memory, copied.1.map memory, copied.1⟩

/-! ## What the loop visits -/

theorem chunk_eq (user : U64) :
    (BitVec.ofNat 64 (alignUp (user + 1).toNat PGSIZE) - user).toNat =
      PGSIZE - user.toNat % PGSIZE := by
  have small := user.isLt
  rw [BitVec.toNat_sub, BitVec.toNat_add, BitVec.toNat_ofNat, alignUp,
    show (1 : U64).toNat = 1 from rfl]
  simp only [PGSIZE]
  omega

section
variable {table : PageTable Task} {needs : U64}

def addresses (table : PageTable Task) (user : U64) (count : Nat) : List Nat :=
  (List.range count).map fun i => table.physical (user + BitVec.ofNat 64 i)

theorem addresses_add (user : U64) (first second : Nat) :
    addresses table user (first + second) =
      addresses table user first ++ addresses table (user + BitVec.ofNat 64 first) second := by
  simp only [addresses, List.range_add, List.map_append, List.map_map, Function.comp_def,
    BitVec.add_assoc, ← BitVec.ofNat_add]

theorem copyFrom_visits (isUser : needs &&& PTE_U.setWidth 64 ≠ 0) {fuel pend : Nat}
    (enough : pend ≤ fuel) (user : U64) : ∃ count ≤ pend,
      (copyFrom table needs fuel user pend).1 = addresses table user count ∧
      (∀ i < count, table.Grants needs (user + BitVec.ofNat 64 i)) ∧
      (copyFrom table needs fuel user pend).2 = (if count = pend then .returned else .killed) ∧
      (count < pend → ¬ table.Grants needs (user + BitVec.ofNat 64 count)) := by
  induction fuel generalizing user pend with
  | zero =>
    obtain rfl : pend = 0 := by omega
    exact ⟨0, Nat.le_refl 0, rfl, fun i less => absurd less (Nat.not_lt_zero i), rfl,
      fun less => absurd less (Nat.not_lt_zero 0)⟩
  | succ fuel induction =>
    rw [copyFrom]
    by_cases isZero : pend = 0
    · subst isZero
      exact ⟨0, Nat.le_refl 0, rfl, fun i less => absurd less (Nat.not_lt_zero i), rfl,
        fun less => absurd less (Nat.not_lt_zero 0)⟩
    · rw [if_neg isZero, chunk_eq]
      rcases table.vaToPa_eq user with ⟨paddr, ran, isPhysical⟩
      have inPage : user.toNat % PGSIZE < PGSIZE := Nat.mod_lt _ (by decide)
      generalize isLen : min (PGSIZE - user.toNat % PGSIZE) pend = len
      have progress : 0 < len ∧ len ≤ pend ∧ user.toNat % PGSIZE + len ≤ PGSIZE := by omega
      simp only [ran]
      by_cases grants : table.Grants needs user
      · rw [if_neg fun fails => (PageTable.test_iff isUser isPhysical).mp fails grants]
        rcases grants with ⟨pte, isEntry, permits⟩
        have here (i : Nat) (less : i < len) :
            table.Grants needs (user + BitVec.ofNat 64 i) ∧
              table.physical (user + BitVec.ofNat 64 i) = paddr.toNat + i := by
          rcases @PageTable.entry_add _ table user i (by omega) with ⟨same, moved⟩
          rw [← isPhysical]
          exact ⟨⟨pte, same.trans isEntry, permits⟩, moved (by simp [isEntry])⟩
        have first : addresses table user len = (List.range len).map (paddr.toNat + ·) :=
          List.map_congr_left fun i isIn => (here i (List.mem_range.mp isIn)).2
        rcases @induction (pend - len) (by omega) (user + BitVec.ofNat 64 len) with
          ⟨count, few, visited, granted, ending, lacks⟩
        refine ⟨len + count, by omega, ?_, ?_, ?_, ?_⟩
        · rw [addresses_add, first, ← visited]
        · intro i less
          by_cases isFirst : i < len
          · exact (here i isFirst).1
          · have later := granted (i - len) (by omega)
            rwa [BitVec.add_assoc, ← BitVec.ofNat_add, Nat.add_sub_cancel' (by omega)] at later
        · show (copyFrom table needs fuel _ _).2 = _
          rw [ending]
          congr 1
          simp only [eq_iff_iff]
          omega
        · intro less
          have later := lacks (by omega)
          rwa [BitVec.add_assoc, ← BitVec.ofNat_add] at later
      · rw [if_pos ((PageTable.test_iff isUser isPhysical).mpr grants)]
        refine ⟨0, Nat.zero_le _, rfl, fun i less => absurd less (Nat.not_lt_zero i), ?_, ?_⟩
        · rw [if_neg (by omega)]
        · intro _
          rwa [BitVec.add_zero]

end

/-! ## The copies are exact -/

theorem store_of_not_mem {address : Nat} : ∀ {memory : Nat → UInt8} {addresses : List Nat}
    {bytes : List UInt8}, address ∉ addresses → store memory addresses bytes address = memory address
  | _, [], _, _ => rfl
  | _, _ :: _, [], _ => rfl
  | memory, head :: rest, byte :: bytes, notIn => by
      rw [List.mem_cons, not_or] at notIn
      rw [store, store_of_not_mem notIn.2, Function.update_of_ne notIn.1]

theorem map_store : ∀ {memory : Nat → UInt8} {addresses : List Nat} {bytes : List UInt8},
    addresses.Nodup → addresses.length ≤ bytes.length →
      addresses.map (store memory addresses bytes) = bytes.take addresses.length
  | _, [], _, _, _ => rfl
  | memory, head :: rest, byte :: bytes, nodup, few => by
      rw [List.nodup_cons] at nodup
      rw [store, List.map_cons, List.length_cons, List.take_succ_cons,
        map_store nodup.2 (Nat.le_of_succ_le_succ few), store_of_not_mem nodup.1,
        Function.update_self]

theorem nodup_addresses {table : PageTable Task} {needs user : U64} {count : Nat}
    (distinct : table.Distinct) (isUser : needs &&& PTE_U.setWidth 64 ≠ 0) (small : count < 2 ^ 32)
    (granted : ∀ i < count, table.Grants needs (user + BitVec.ofNat 64 i)) :
    (addresses table user count).Nodup := by
  refine List.Nodup.map_on ?_ List.nodup_range
  intro i isFirst j isSecond same
  rw [List.mem_range] at isFirst isSecond
  rcases granted i isFirst with ⟨pte, isEntry, permits⟩
  rcases granted j isSecond with ⟨pte', isEntry', permits'⟩
  rw [PageTable.physical_eq isEntry, PageTable.physical_eq isEntry'] at same
  have aligned := PageTable.frame_aligned pte
  have aligned' := PageTable.frame_aligned pte'
  have sameFrame : frame pte = frame pte' := by
    apply BitVec.eq_of_toNat_eq
    simp only [PGSIZE] at *
    omega
  have samePage := distinct _ _ _ _ isEntry isEntry' (PageTable.user_of_permits isUser permits)
    (PageTable.user_of_permits isUser permits') sameFrame
  rw [sameFrame] at same
  simp only [PageTable.pageNumber, BitVec.toNat_add, BitVec.toNat_ofNat, PGSIZE] at same samePage
  omega

/-- With the permissions on all pages of the range the copy visits all of it, and returns;
else it is killed, and has visited nothing from the first page without them on. -/
structure Visits (table : PageTable Task) (needs user : U64) (count : Nat) (copied : CopyOutcome) :
    Prop where
  whole : (∀ i < count, table.Grants needs (user + BitVec.ofNat 64 i)) →
    copied.ending = .returned ∧ copied.touched = addresses table user count
  cut : ¬ (∀ i < count, table.Grants needs (user + BitVec.ofNat 64 i)) →
    copied.ending = .killed ∧ ∀ address ∈ copied.touched, ∃ i < count,
      address = table.physical (user + BitVec.ofNat 64 i) ∧
        ∀ j ≤ i, table.Grants needs (user + BitVec.ofNat 64 j)

/-- What the copies of a range do. -/
structure CopiesExactly (table : PageTable Task) (memory : Nat → UInt8) (user : U64)
    (bytes : List UInt8) (out back : CopyOutcome) : Prop where
  visitsOut : Visits table toWrite user bytes.length out
  visitsBack : Visits table toRead user bytes.length back
  written : out.touched.map out.memory = bytes.take out.touched.length
  unchanged : ∀ address, address ∉ out.touched → out.memory address = memory address
  delivered : back.delivered = back.touched.map memory
  unwritten : back.memory = memory
  roundTrip : (∀ i < bytes.length, table.Grants toWrite (user + BitVec.ofNat 64 i)) →
    (∀ i < bytes.length, table.Grants toRead (user + BitVec.ofNat 64 i)) →
      (copyFromUser table out.memory user bytes.length).delivered = bytes

theorem copyFrom_cases {table : PageTable Task} {needs : U64}
    (isUser : needs &&& PTE_U.setWidth 64 ≠ 0) (user : U64) {count : Nat} {copied : CopyOutcome}
    (isTouched : copied.touched = (copyFrom table needs count user count).1)
    (isEnding : copied.ending = (copyFrom table needs count user count).2) :
    Visits table needs user count copied ∧ ∃ visited ≤ count,
      copied.touched = addresses table user visited ∧
        ∀ i < visited, table.Grants needs (user + BitVec.ofNat 64 i) := by
  rcases @copyFrom_visits _ table needs isUser count count (Nat.le_refl _) user with
    ⟨visited, few, theAddresses, granted, ending, lacks⟩
  rw [← isTouched] at theAddresses
  rw [← isEnding] at ending
  refine ⟨⟨fun all => ?_, fun notAll => ?_⟩, visited, few, theAddresses, granted⟩
  · obtain rfl : visited = count := by
      by_contra differs
      exact lacks (by omega) (all visited (by omega))
    exact ⟨by rw [ending, if_pos rfl], theAddresses⟩
  · have differs : visited ≠ count := by
      rintro rfl
      exact notAll granted
    refine ⟨by rw [ending, if_neg differs], fun address isTouched => ?_⟩
    rw [theAddresses] at isTouched
    rcases List.mem_map.mp isTouched with ⟨i, isVisited, rfl⟩
    have less := List.mem_range.mp isVisited
    exact ⟨i, by omega, rfl, fun j before => granted j (by omega)⟩

theorem copiesExactly {table : PageTable Task} (distinct : table.Distinct) (memory : Nat → UInt8)
    (user : U64) {bytes : List UInt8} (small : bytes.length < 2 ^ 32) :
    CopiesExactly table memory user bytes (copyToUser table memory user bytes)
      (copyFromUser table memory user bytes.length) := by
  have isWrite : toWrite &&& PTE_U.setWidth 64 ≠ 0 := by decide
  rcases @copyFrom_cases _ table toWrite isWrite user bytes.length
    (copyToUser table memory user bytes) rfl rfl with ⟨visitsOut, visited, few, touched, granted⟩
  have visitsBack (memory : Nat → UInt8) := (@copyFrom_cases _ table toRead (by decide) user
    bytes.length (copyFromUser table memory user bytes.length) rfl rfl).1
  have length : (addresses table user visited).length = visited := by simp [addresses]
  have written : (copyToUser table memory user bytes).touched.map
      (copyToUser table memory user bytes).memory =
      bytes.take (copyToUser table memory user bytes).touched.length := by
    refine map_store ?_ ?_
    · rw [show (copyFrom _ _ _ _ _).1 = _ from touched]
      exact nodup_addresses distinct isWrite (by omega) granted
    · rw [show (copyFrom _ _ _ _ _).1 = _ from touched, length]
      exact few
  refine ⟨visitsOut, visitsBack memory, written, fun _ => store_of_not_mem, rfl, rfl, ?_⟩
  intro mayWrite mayRead
  have out := (visitsOut.whole mayWrite).2
  rw [out] at written
  have back : (copyFrom table toRead bytes.length user bytes.length).1 = _ :=
    ((visitsBack memory).whole mayRead).2
  show (copyFrom table toRead bytes.length user bytes.length).1.map _ = bytes
  rw [back, written, addresses, List.length_map, List.length_range, List.take_length]


/-! ## Two pages -/

/-- The pages 0 and 1 of the user are in the frames 5 and 3. -/
def twoPagesWords (p index : Nat) : U64 :=
  if p = 0 ∧ index = 0 then tablePte 1
  else if p = 1 ∧ index = 0 then tablePte 2
  else if p = 2 ∧ index = 0 then leafPte (paddr 5) (PTE_R ||| PTE_W ||| PTE_U)
  else if p = 2 ∧ index = 1 then leafPte (paddr 3) (PTE_R ||| PTE_W ||| PTE_U)
  else 0

def twoPagesMemory : Pages Unit Words := ⟨⟨fun _ => none, fun _ => none⟩, fun _ => true, twoPagesWords⟩

def twoPagesEntry (x : U64) : Option U64 :=
  if vaLevel x 2 = 0 ∧ vaLevel x 1 = 0 ∧ vaLevel x 0 < 2 then some (twoPagesWords 2 (vaLevel x 0))
  else none

theorem vaToPa_twoPages (x : U64) : vaToPa 0 x twoPagesMemory =
    .ok (((twoPagesEntry x).elim 0 fun pte => frame pte ||| (x &&& BitVec.ofNat 64 (PGSIZE - 1)),
      twoPagesEntry x), twoPagesMemory) := by
  have read (table index : Nat) (inMemory : table < 3) :
      readPte table index twoPagesMemory = .ok (twoPagesWords table index, twoPagesMemory) :=
    readPte_eq (Nat.lt_trans inMemory (by decide)) index
  simp only [vaToPa, getPte, getPteFrom, bind_eq, read 0 _ (by decide)]
  by_cases first : vaLevel x 2 = 0
  case neg =>
    rw [show twoPagesWords 0 (vaLevel x 2) = 0 by simp [twoPagesWords, first],
      show twoPagesEntry x = none from if_neg fun isIn => first isIn.1]
    rfl
  rw [first, show tableOf (twoPagesWords 0 0) = 1 by decide,
    if_pos (show isValid (twoPagesWords 0 0) = true by decide),
    if_neg (show ¬ isLeaf (twoPagesWords 0 0) = true by decide)]
  simp only [bind_eq, read 1 _ (by decide)]
  by_cases second : vaLevel x 1 = 0
  case neg =>
    rw [show twoPagesWords 1 (vaLevel x 1) = 0 by simp [twoPagesWords, second],
      show twoPagesEntry x = none from if_neg fun isIn => second isIn.2.1]
    rfl
  rw [second, show tableOf (twoPagesWords 1 0) = 2 by decide,
    if_pos (show isValid (twoPagesWords 1 0) = true by decide),
    if_neg (show ¬ isLeaf (twoPagesWords 1 0) = true by decide)]
  simp only [bind_eq, read 2 _ (by decide)]
  by_cases third : vaLevel x 0 < 2
  case neg =>
    rw [show twoPagesWords 2 (vaLevel x 0) = 0 by
        rw [twoPagesWords, if_neg (by omega), if_neg (by omega), if_neg (by omega), if_neg (by omega)],
      show twoPagesEntry x = none from if_neg fun isIn => third isIn.2.2]
    rfl
  rw [show twoPagesEntry x = some _ from if_pos ⟨first, second, third⟩]
  generalize vaLevel x 0 = last at third ⊢
  have leaf : isValid (twoPagesWords 2 last) = true ∧ isLeaf (twoPagesWords 2 last) = true := by
    interval_cases last <;> decide
  rw [if_pos leaf]
  show (readPte 2 last >>= _) twoPagesMemory = _
  rw [bind_eq, read 2 _ (by decide)]
  dsimp only
  rw [if_pos leaf.2]
  rfl

theorem frame_twoPages {x pte : U64} (isEntry : twoPagesEntry x = some pte) :
    vaLevel x 2 = 0 ∧ vaLevel x 1 = 0 ∧ vaLevel x 0 < 2 ∧
      (frame pte).toNat = PHY_MEMORY + (5 - 2 * vaLevel x 0) * PGSIZE := by
  rw [twoPagesEntry] at isEntry
  split at isEntry
  case isFalse => cases isEntry
  case isTrue isIn =>
    cases isEntry
    refine ⟨isIn.1, isIn.2.1, isIn.2.2, ?_⟩
    have third := isIn.2.2
    generalize vaLevel x 0 = last at third ⊢
    interval_cases last <;> decide

theorem inMemory_twoPages {x paddr pte : U64}
    (ran : vaToPa 0 x twoPagesMemory = .ok ((paddr, some pte), twoPagesMemory)) :
    PHY_MEMORY ≤ paddr.toNat ∧ paddr.toNat < PHY_TOP := by
  rw [vaToPa_twoPages] at ran
  simp only [Except.ok.injEq, Prod.mk.injEq, and_true] at ran
  rcases ran with ⟨rfl, isEntry⟩
  have isFrame := (frame_twoPages isEntry).2.2.2
  rw [isEntry, Option.elim, toNat_or_offset (PageTable.frame_aligned pte), isFrame]
  simp only [PHY_MEMORY, PHY_TOP, PHY_SIZE, PGSIZE]
  omega

def twoPages : PageTable Unit where
  pages := twoPagesMemory
  root := 0
  walks x := ⟨_, vaToPa_twoPages x⟩
  inMemory _ _ _ ran _ := inMemory_twoPages ran

theorem entry_twoPages (x : U64) : twoPages.entry x = twoPagesEntry x := by
  rw [PageTable.entry, show vaToPa twoPages.root x twoPages.pages = _ from vaToPa_twoPages x]

theorem distinct_twoPages : twoPages.Distinct := by
  intro x y pte pte' isEntry isEntry' _ _ same
  rw [entry_twoPages] at isEntry isEntry'
  rcases frame_twoPages isEntry with ⟨first, second, third, isFrame⟩
  rcases frame_twoPages isEntry' with ⟨first', second', third', isFrame'⟩
  rw [same, isFrame'] at isFrame
  simp only [vaLevel_eq, PageTable.pageNumber, PGSIZE] at *
  omega

theorem grants_twoPages {x : U64} (below : x.toNat < 2 * PGSIZE) :
    twoPages.Grants toRead x ∧ twoPages.Grants toWrite x := by
  have isIn : vaLevel x 2 = 0 ∧ vaLevel x 1 = 0 ∧ vaLevel x 0 < 2 := by
    simp only [vaLevel_eq, PGSIZE] at below ⊢
    omega
  have isEntry : twoPages.entry x = _ := (entry_twoPages x).trans (if_pos isIn)
  have third := isIn.2.2
  generalize vaLevel x 0 = last at third isEntry
  refine ⟨⟨_, isEntry, ?_⟩, _, isEntry, ?_⟩ <;> interval_cases last <;> decide

theorem copiesExactly_twoPages : twoPages.Grants toWrite 0xFFF ∧ twoPages.Grants toWrite 0x1000 ∧
    CopiesExactly twoPages (fun _ => 0) 0xFFF [1, 2] (copyToUser twoPages (fun _ => 0) 0xFFF [1, 2])
      (copyFromUser twoPages (fun _ => 0) 0xFFF 2) :=
  ⟨(grants_twoPages (by decide)).2, (grants_twoPages (by decide)).2,
    copiesExactly distinct_twoPages _ _ (by decide)⟩

/-! ## Strings -/

/-- What `argstr` leaves: the value that it returns, the bytes copied to `path`, and the
physical addresses that it read. -/
structure Argument where
  ending : Ending
  accepted : Bool
  path : List UInt8
  touched : List Nat

/-- The address is translated once, and `strlen` goes on in the physical memory. -/
def argstr (table : PageTable Task) (memory : Nat → UInt8) (uaddr : U64) : Argument :=
  match vaToPa table.root uaddr table.pages with
  | .error _ => ⟨.fault, false, [], []⟩
  | .ok ((paddr, pte), _) =>
    if paddr = 0 ∨ pte.getD 0 &&& toRead ≠ toRead then ⟨.killed, false, [], []⟩
    else
      let limit := PHY_TOP - paddr.toNat
      let string := Terminated.read (· = 0) limit fun i => memory (paddr.toNat + i)
      let touched := (List.range (string.length + 1)).map (paddr.toNat + ·)
      if string.length = limit then ⟨.fault, false, [], touched⟩
      else
        match Tnix.argstr string with
        | none => ⟨.returned, false, [], touched⟩
        | some path => ⟨.returned, true, path, touched⟩

structure Sees (table : PageTable Task) (memory : Nat → UInt8) (uaddr : U64)
    (string : List UInt8) : Prop where
  readable : ∀ i ≤ string.length, table.Grants toRead (uaddr + BitVec.ofNat 64 i)
  noNul : 0 ∉ string
  bytes : ∀ i ≤ string.length,
    memory (table.physical (uaddr + BitVec.ofNat 64 i)) = string.getD i 0

/-- The string is accepted as the user has it, and nothing but pages that the user may read is
read. -/
structure PassesString (table : PageTable Task) (string : List UInt8) (argument : Argument) :
    Prop where
  ending : argument.ending = .returned
  accepted : argument.accepted = true
  path : argument.path = string
  readable : ∀ address ∈ argument.touched, ∃ x, table.Grants toRead x ∧
    address / PGSIZE = table.physical x / PGSIZE

theorem passesString_iff {table : PageTable Task} {memory : Nat → UInt8} {uaddr : U64}
    {string : List UInt8} (sees : Sees table memory uaddr string) (short : string.length ≤ 127) :
    PassesString table string (argstr table memory uaddr) ↔
      ∀ i ≤ string.length, PGSIZE ≤ uaddr.toNat % PGSIZE + i →
        memory (table.physical uaddr + i) = string.getD i 0 ∧
          ∃ x, table.Grants toRead x ∧
            (table.physical uaddr + i) / PGSIZE = table.physical x / PGSIZE := by
  have first := sees.readable 0 (Nat.zero_le _)
  rw [BitVec.add_zero] at first
  rcases table.vaToPa_eq uaddr with ⟨paddr, ran, isPhysical⟩
  have passes := fun fails => (PageTable.test_iff (by decide) isPhysical).mp fails first
  rcases first with ⟨pte, isEntry, permits⟩
  -- the bytes on the page of `uaddr`, and with the condition all of them
  have inPage (i : Nat) (inString : i ≤ string.length) (isIn : uaddr.toNat % PGSIZE + i < PGSIZE) :
      memory (table.physical uaddr + i) = string.getD i 0 ∧
        ∃ x, table.Grants toRead x ∧
          (table.physical uaddr + i) / PGSIZE = table.physical x / PGSIZE := by
    have moved := (table.entry_add isIn).2 (by simp [isEntry])
    rw [← moved]
    exact ⟨sees.bytes i inString, _, sees.readable i inString, rfl⟩
  rw [argstr, ran]
  dsimp only
  rw [if_neg passes, ← isPhysical]
  constructor
  · intro right i inString _
    split at right
    case isTrue => cases right.ending
    case isFalse notFull =>
      split at right
      case h_1 => cases right.accepted
      case h_2 path copied =>
        have isText := (Option.ite_none_left_eq_some.mp copied).2
        have isPath : Terminated.read _ _ _ = string := (Option.some.inj isText).trans right.path
        have readable := right.readable
        dsimp only at readable
        rw [isPath] at notFull readable
        rcases Terminated.read_eq_iff.mp isPath with ⟨few, bytes, _, ends⟩
        refine ⟨?_, readable _ (List.mem_map_of_mem (List.mem_range.mpr (Nat.lt_succ_of_le inString)))⟩
        by_cases isLast : i < string.length
        · rw [List.getD_eq_getElem?_getD, bytes i, if_pos isLast, Option.getD_some]
        · obtain rfl : i = string.length := by omega
          rw [ends (by omega), List.getD_eq_default _ _ (Nat.le_refl _)]
  · intro behind
    have all (i : Nat) (inString : i ≤ string.length) := by
      by_cases isIn : uaddr.toNat % PGSIZE + i < PGSIZE
      · exact inPage i inString isIn
      · exact behind i inString (Nat.not_lt.mp isIn)
    have below : table.physical uaddr + string.length < PHY_TOP := by
      rcases (all _ (Nat.le_refl _)).2 with ⟨x, grants, same⟩
      have inMemory := (grants.physical_inMemory (by decide)).2
      simp only [PHY_TOP, PHY_MEMORY, PHY_SIZE, PGSIZE] at inMemory same ⊢
      omega
    have isRead : Terminated.read (· = 0) (PHY_TOP - table.physical uaddr)
        (fun i => memory (table.physical uaddr + i)) = string := by
      refine Terminated.read_eq_iff.mpr ⟨by omega, fun k => ?_, fun k isIn => ?_, fun _ => ?_⟩
      · split
        case isTrue isIn =>
          rw [(all k (by omega)).1, List.getD_eq_getElem _ _ isIn, List.getElem?_eq_getElem isIn]
        case isFalse isOut => exact List.getElem?_eq_none (Nat.not_lt.mp isOut)
      · rw [(all k (by omega)).1, List.getD_eq_getElem _ _ isIn]
        exact fun isNul => sees.noNul (isNul ▸ List.getElem_mem isIn)
      · rw [(all _ (Nat.le_refl _)).1, List.getD_eq_default _ _ (Nat.le_refl _)]
    have copied : Tnix.argstr string = some string := if_neg (by rw [MAX_PATH_LENGTH]; omega)
    rw [isRead, if_neg (by omega), copied]
    refine ⟨rfl, rfl, rfl, fun address isTouched => ?_⟩
    rcases List.mem_map.mp isTouched with ⟨i, isIn, rfl⟩
    exact (all i (Nat.lt_succ_iff.mp (List.mem_range.mp isIn))).2

theorem passesString_a : PassesString twoPages [97]
    (argstr twoPages (fun address => if address = 0x80005000 then 97 else 0) 0) := by
  refine (passesString_iff ⟨?_, by decide, ?_⟩ (by decide)).mpr ?_
  · intro i few
    refine (grants_twoPages ?_).1
    simp only [List.length_singleton] at few
    interval_cases i <;> decide
  · intro i few
    simp only [List.length_singleton] at few
    interval_cases i <;> decide +kernel
  · intro i few far
    simp only [List.length_singleton] at few
    exact absurd far (by interval_cases i <;> decide)

/-- Of a string over two pages `argstr` takes what is on the first one, and then what is in the
next frame. -/
theorem argstr_straddles : Sees twoPages
    (fun address => if address = 0x80005FFF then 97 else if address = 0x80003000 then 98 else 0)
      0xFFF [97, 98] ∧
    ¬ PassesString twoPages [97, 98] (argstr twoPages
      (fun address => if address = 0x80005FFF then 97 else if address = 0x80003000 then 98 else 0)
      0xFFF) := by
  refine ⟨⟨?_, by decide, ?_⟩, fun right => absurd right.path (by decide +kernel)⟩
  · intro i few
    refine (grants_twoPages ?_).1
    simp only [List.length_cons, List.length_nil] at few
    interval_cases i <;> decide
  · intro i few
    simp only [List.length_cons, List.length_nil] at few
    interval_cases i <;> decide +kernel

/-! ## The locks -/

/-- What the model of the locks knows of an entry. -/
def permissions (pte : U64) : Mem.Pte :=
  ⟨pte.getLsbD 1, pte.getLsbD 2, pte.getLsbD 3, pte.getLsbD 4⟩

theorem readable_permissions (pte : U64) :
    Mem.readable (permissions pte) = true ↔ pte &&& toRead = toRead := by
  have bits : ∀ i < 64, toRead.getLsbD i = (decide (i = 1) || decide (i = 4)) := by decide
  rw [Mem.readable, permissions, Bool.and_eq_true]
  constructor
  · rintro ⟨first, second⟩
    apply BitVec.eq_of_getLsbD_eq
    intro i inWord
    rw [BitVec.getLsbD_and, bits i inWord]
    rcases Nat.decEq i 1 with notFirst | rfl
    · rcases Nat.decEq i 4 with notFourth | rfl
      · simp [notFirst, notFourth]
      · simpa using second
    · simpa using first
  · intro permits
    have has : ∀ i, toRead.getLsbD i = true → pte.getLsbD i = true := by
      intro i isSet
      rw [← permits, BitVec.getLsbD_and, Bool.and_eq_true] at isSet
      exact isSet.1
    exact ⟨has 1 (by decide), has 4 (by decide)⟩

/-- `argstr` kills the task here if and only if it does in the model of the locks. -/
theorem argstr_kills_iff {table : PageTable Task} {task : Mem.Task}
    (agrees : ∀ x : U64, Mem.vaToPa task x.toNat = (table.entry x).map permissions)
    (memory : Nat → UInt8) (uaddr : U64) (held : List Mem.Lock) :
    (argstr table memory uaddr).ending = .killed ↔
      Mem.argstr task uaddr.toNat held = Mem.kill task held := by
  have fits : Mem.fits task Mem.readable uaddr.toNat = true ↔ table.Grants toRead uaddr := by
    rw [Mem.fits, agrees, PageTable.Grants]
    cases table.entry uaddr <;> simp [readable_permissions]
  have stops : ∀ after, Mem.kill task held ≠ .ok after := by
    intro after
    rw [Mem.kill]
    split <;> rintro ⟨⟩
  rcases table.vaToPa_eq uaddr with ⟨paddr, ran, isPhysical⟩
  have test := PageTable.test_iff (by decide : toRead &&& PTE_U.setWidth 64 ≠ 0) isPhysical
  rw [argstr, ran, Mem.argstr]
  dsimp only
  by_cases granted : table.Grants toRead uaddr
  · rw [if_neg (fun fails => test.mp fails granted), if_pos (fits.mpr granted)]
    refine iff_of_false ?_ fun same => stops _ same.symm
    split
    · rintro ⟨⟩
    · split <;> rintro ⟨⟩
  · rw [if_pos (test.mpr granted), if_neg (fun isFit => granted (fits.mp isFit))]
    exact iff_of_true rfl rfl

end Tnix.Vm
