import Mathlib.Data.List.TakeWhile
import Tnix.Fs.PathResolution

/-! # Names in buffers of `DLENGTH` bytes

The indices at which `parse_path` and `path_split` write to their buffers, and at which
`dentry_name_equal` reads its second argument. Nothing checks the length of a component. -/

namespace Tnix.Fs

open List

/-- The writes of `strncpy` from index `index` on, with `n` left. -/
def strncpyFrom (source : Nat → UInt8) : Nat → Nat → List (Nat × UInt8)
  | 0, _ => []
  | n + 1, index =>
    (index, source index) :: if source index ≠ 0 then strncpyFrom source n (index + 1)
      else (List.range' (index + 1) n).map fun later => (later, 0)

/-- The writes of `parse_path` to `dname`: the `memset` and the copy of the component, with
its NUL if it is the last one. -/
def parsePathWrites (path : List UInt8) : List (Nat × UInt8) :=
  let length := (path.takeWhile (· ≠ slash)).length
  (List.range DLENGTH).map (fun index => (index, 0)) ++
    strncpyFrom (path.getD · 0) (if path.dropWhile (· ≠ slash) ≠ [] then length else length + 1) 0

/-- The bytes from a cleared buffer on, into which a name was copied: the name, NULs up to the
end of the buffer, and the memory behind it. -/
def bufferAfter (name : List UInt8) (behind : Nat → UInt8) (index : Nat) : UInt8 :=
  if index < name.length then name.getD index 0
  else if index < DLENGTH then 0 else behind index

/-- The bytes from `dname` on after `parse_path`. -/
def dnameAfter (path : List UInt8) : (Nat → UInt8) → Nat → UInt8 :=
  bufferAfter (path.takeWhile (· ≠ slash))

/-- The writes of `path_split` to `filename`. -/
def pathSplitWrites (path : List UInt8) : List (Nat × UInt8) :=
  (List.range (splitLast path).2.length).map fun index => (index, (splitLast path).2.getD index 0)

/-- The bytes from `filename` on after `path_split`; the callers have cleared the buffer. -/
def filenameAfter (path : List UInt8) : (Nat → UInt8) → Nat → UInt8 :=
  bufferAfter (splitLast path).2

/-- The indices at which `dentry_name_equal` reads its second argument. -/
def nameEqualReads (first second : Nat → UInt8) : Nat → Nat → List Nat
  | 0, index => [index]
  | remaining + 1, index =>
    index :: if first index ≠ second index then []
      else if first index = 0 then []
      else nameEqualReads first second remaining (index + 1)

def parseCallsFrom : Nat → List UInt8 → List (List UInt8)
  | 0, _ => []
  | fuel + 1, path =>
    if path = [] then []
    else path :: parseCallsFrom fuel (path.dropWhile (· ≠ slash)).tail

/-- The path as `dentry_find` starts with it. -/
def walked (path : List UInt8) : List UInt8 :=
  if path.head? = some slash then path.tail else path

/-- All accesses to the name buffers are within them. `dentry_find` compares `dname` with the
entries, and `dentry_del` the `filename` that `sys_unlink` hands to it. -/
structure NamesFit (path : List UInt8) : Prop where
  parsePath : ∀ argument ∈ parseCallsFrom path.length (walked path),
    ∀ write ∈ parsePathWrites argument, write.1 < DLENGTH
  pathSplit : ∀ write ∈ pathSplitWrites path, write.1 < DLENGTH
  nameEqual : ∀ argument ∈ parseCallsFrom path.length (walked path), ∀ first behind,
    ∀ index ∈ nameEqualReads first (dnameAfter argument behind) DLENGTH 0, index < DLENGTH
  nameEqualDel : ∀ first behind,
    ∀ index ∈ nameEqualReads first (filenameAfter path behind) DLENGTH 0, index < DLENGTH

theorem strncpyFrom_index (source : Nat → UInt8) (n : Nat) : ∀ index,
    (strncpyFrom source n index).map Prod.fst = List.range' index n := by
  induction n with
  | zero => exact fun _ => rfl
  | succ n induction =>
    intro index
    rw [strncpyFrom, map_cons, List.range'_succ]
    split
    · rw [induction]
    · rw [map_map]
      exact congrArg _ (map_id _)

variable {path name rest : List UInt8}

theorem parsePathWrites_iff (noSlash : slash ∉ name) (ends : rest = [] ∨ rest.head? = some slash) :
    (∀ write ∈ parsePathWrites (name ++ rest), write.1 < DLENGTH) ↔
      if rest = [] then name.length < DLENGTH else name.length ≤ DLENGTH := by
  have parts := takeWhile_name noSlash ends
  have indices : (parsePathWrites (name ++ rest)).map Prod.fst = List.range DLENGTH ++
      List.range' 0 (if rest ≠ [] then name.length else name.length + 1) := by
    rw [parsePathWrites, parts.1, parts.2, map_append, strncpyFrom_index, map_map]
    exact congrArg (· ++ _) (map_id _)
  have all : (∀ write ∈ parsePathWrites (name ++ rest), write.1 < DLENGTH) ↔
      ∀ index ∈ (parsePathWrites (name ++ rest)).map Prod.fst, index < DLENGTH := by
    simp only [mem_map, forall_exists_index, and_imp, forall_apply_eq_imp_iff₂]
  have copied : ∀ n, (∀ index ∈ List.range DLENGTH ++ List.range' 0 n, index < DLENGTH) ↔
      n ≤ DLENGTH := by
    intro n
    constructor
    · intro fits
      by_contra long
      have last := fits DLENGTH (mem_append_right _ (mem_range'_1.mpr (by omega)))
      exact Nat.lt_irrefl _ last
    · intro fits index isIndex
      rcases mem_append.mp isIndex with inMemset | inCopy
      · exact mem_range.mp inMemset
      · have := (mem_range'_1.mp inCopy).2
        omega
  rw [all, indices, copied]
  by_cases last : rest = []
  · rw [if_neg (not_not_intro last), if_pos last, Nat.succ_le_iff]
  · rw [if_pos last, if_neg last]

theorem nameEqualReads_le {first second : Nat → UInt8} {nul : Nat} (isNul : second nul = 0)
    (remaining : Nat) : ∀ index, index ≤ nul → nul < index + remaining →
      ∀ read ∈ nameEqualReads first second remaining index, read ≤ nul := by
  induction remaining with
  | zero =>
    intro index atMost less
    omega
  | succ remaining induction =>
    intro index atMost less read isRead
    rw [nameEqualReads, mem_cons] at isRead
    rcases isRead with rfl | later
    · exact atMost
    · split at later
      case isTrue => cases later
      case isFalse same =>
        split at later
        case isTrue => cases later
        case isFalse notNul =>
          have notHere : index ≠ nul := by
            rintro rfl
            exact notNul ((not_not.mp same).trans isNul)
          exact induction (index + 1) (by omega) (by omega) read later

theorem mem_nameEqualReads {bytes : Nat → UInt8} (remaining : Nat) : ∀ index,
    (∀ i, i < index + remaining → bytes i ≠ 0) →
      index + remaining ∈ nameEqualReads bytes bytes remaining index := by
  induction remaining with
  | zero => exact fun index _ => mem_singleton_self index
  | succ remaining induction =>
    intro index noNul
    have sum : index + (remaining + 1) = index + 1 + remaining := by omega
    rw [nameEqualReads, if_neg (not_not_intro rfl), if_neg (noNul index (by omega)), sum]
    exact mem_cons_of_mem _ (induction (index + 1) fun i less => noNul i (by omega))

/-- The comparisons read within the buffer if and only if the copied name leaves a NUL there. -/
theorem nameEqualReads_iff (noNul : 0 ∉ name) (atMost : name.length ≤ DLENGTH) :
    (∀ first behind, ∀ index ∈ nameEqualReads first (bufferAfter name behind) DLENGTH 0,
      index < DLENGTH) ↔ name.length < DLENGTH := by
  constructor
  · intro reads
    refine Nat.lt_of_le_of_ne atMost fun full => ?_
    let bytes := bufferAfter name fun _ => 0
    have noNulByte : ∀ i, i < 0 + DLENGTH → bytes i ≠ 0 := by
      intro i less
      have inName : i < name.length := by omega
      simp only [bytes, bufferAfter, if_pos inName, getD_eq_getElem _ _ inName]
      exact fun isNul => noNul (isNul ▸ getElem_mem inName)
    have read := reads bytes (fun _ => 0) _ (mem_nameEqualReads DLENGTH 0 noNulByte)
    omega
  · intro short first behind index isRead
    have isNul : bufferAfter name behind name.length = 0 := by
      simp only [bufferAfter, Nat.lt_irrefl, if_false, if_pos short]
    exact Nat.lt_of_le_of_lt
      (nameEqualReads_le isNul DLENGTH 0 (Nat.zero_le _) (by omega) index isRead) short

/-- A component fits into the buffer for every comparison if and only if it has less than
`DLENGTH` bytes. -/
theorem component_iff (noSlash : slash ∉ name) (noNul : 0 ∉ name)
    (ends : rest = [] ∨ rest.head? = some slash) :
    ((∀ write ∈ parsePathWrites (name ++ rest), write.1 < DLENGTH) ∧
      ∀ first behind, ∀ index ∈ nameEqualReads first (dnameAfter (name ++ rest) behind) DLENGTH 0,
        index < DLENGTH) ↔ name.length < DLENGTH := by
  rw [parsePathWrites_iff noSlash ends, dnameAfter, (takeWhile_name noSlash ends).1]
  constructor
  · rintro ⟨fits, reads⟩
    refine (nameEqualReads_iff noNul ?_).mp reads
    split at fits
    · exact Nat.le_of_lt fits
    · exact fits
  · intro short
    refine ⟨?_, (nameEqualReads_iff noNul (Nat.le_of_lt short)).mpr short⟩
    split
    · exact short
    · exact Nat.le_of_lt short

theorem filename_iff (noNul : 0 ∉ (splitLast path).2) :
    ((∀ write ∈ pathSplitWrites path, write.1 < DLENGTH) ∧
      ∀ first behind, ∀ index ∈ nameEqualReads first (filenameAfter path behind) DLENGTH 0,
        index < DLENGTH) ↔ (splitLast path).2.length < DLENGTH := by
  have writes : (∀ write ∈ pathSplitWrites path, write.1 < DLENGTH) ↔
      (splitLast path).2.length ≤ DLENGTH := by
    simp only [pathSplitWrites, mem_map, mem_range, forall_exists_index, and_imp,
      forall_apply_eq_imp_iff₂]
    exact ⟨fun all => Nat.not_lt.mp fun long => Nat.lt_irrefl _ (all DLENGTH long),
      fun atMost index less => Nat.lt_of_lt_of_le less atMost⟩
  rw [writes]
  constructor
  · rintro ⟨atMost, reads⟩
    exact (nameEqualReads_iff noNul atMost).mp reads
  · intro short
    have atMost := Nat.le_of_lt short
    exact ⟨atMost, (nameEqualReads_iff noNul atMost).mpr short⟩

/-! ## The name behind the last slash -/

theorem mem_names_self (noSlash : slash ∉ name) (nonempty : name ≠ []) : name ∈ names name := by
  have parts := @takeWhile_name name [] noSlash (.inl rfl)
  rw [append_nil] at parts
  rw [names_cons nonempty, parts.1]
  exact mem_cons_self

theorem mem_names_last (noSlash : slash ∉ name) (nonempty : name ≠ []) (length : Nat) :
    ∀ front : List UInt8, front.length < length → name ∈ names (front ++ slash :: name) := by
  induction length with
  | zero => exact fun _ short => absurd short (Nat.not_lt_zero _)
  | succ length induction =>
    intro front short
    rw [names_cons (by simp)]
    refine mem_cons_of_mem _ ?_
    by_cases isPath : slash ∈ front
    · rcases eq_append_cons_of_mem isPath with ⟨first, later, rfl, noSlashFirst⟩
      have rest := (@takeWhile_name first (slash :: (later ++ slash :: name)) noSlashFirst
        (.inr rfl)).2
      rw [append_assoc, cons_append, rest]
      rw [length_append, length_cons] at short
      exact induction later (by omega)
    · rw [(@takeWhile_name front (slash :: name) isPath (.inr rfl)).2]
      exact mem_names_self noSlash nonempty

theorem splitLast_append (parent : List UInt8) (noSlash : slash ∉ name) :
    splitLast (parent ++ slash :: name) = (parent, name) := by
  have parts := @takeWhile_name name.reverse (slash :: parent.reverse)
    (fun isByte => noSlash (mem_reverse.mp isByte)) (.inr rfl)
  have reversed : (parent ++ slash :: name).reverse = name.reverse ++ slash :: parent.reverse := by
    simp
  rw [splitLast, if_pos (by simp), reversed, parts.1, parts.2]
  simp

theorem exists_lastSlash (isPath : slash ∈ path) :
    ∃ parent name, path = parent ++ slash :: name ∧ slash ∉ name := by
  rcases eq_append_cons_of_mem (mem_reverse.mpr isPath) with ⟨front, back, same, noSlash⟩
  refine ⟨back.reverse, front.reverse, ?_, fun isByte => noSlash (mem_reverse.mp isByte)⟩
  rw [← reverse_reverse path, same]
  simp

/-- What `path_split` takes for the name is the last component of the walk. -/
theorem filename_mem_names (nonempty : (splitLast path).2 ≠ []) :
    (splitLast path).2 ∈ names (walked path) := by
  by_cases isPath : slash ∈ path
  · rcases exists_lastSlash isPath with ⟨parent, name, rfl, noSlash⟩
    rw [splitLast_append parent noSlash] at nonempty ⊢
    cases parent with
    | nil => exact mem_names_self noSlash nonempty
    | cons byte parent =>
      rw [walked]
      split
      · exact mem_names_last noSlash nonempty _ parent (Nat.lt_succ_self _)
      · exact mem_names_last noSlash nonempty _ (byte :: parent) (Nat.lt_succ_self _)
  · rw [splitLast, if_neg isPath] at nonempty ⊢
    have notSlash : path.head? ≠ some slash := fun isHead => isPath (mem_of_mem_head? isHead)
    rw [walked, if_neg notSlash]
    exact mem_names_self isPath nonempty

theorem filename_subset : (splitLast path).2 ⊆ path := by
  rw [splitLast]
  split
  · exact fun byte isByte => mem_reverse.mp
      ((takeWhile_sublist _).subset (mem_reverse.mp isByte))
  · exact fun _ => id

/-! ## All components -/

theorem parseCallsFrom_names (fuel : Nat) : ∀ path : List UInt8,
    namesFrom fuel path = (parseCallsFrom fuel path).map (List.takeWhile (· ≠ slash)) := by
  induction fuel with
  | zero => exact fun _ => rfl
  | succ fuel induction =>
    intro path
    rw [namesFrom, parseCallsFrom]
    split
    · rfl
    · rw [map_cons, induction]

theorem subset_of_mem_parseCallsFrom (fuel : Nat) : ∀ {path argument : List UInt8},
    argument ∈ parseCallsFrom fuel path → argument ⊆ path := by
  induction fuel with
  | zero =>
    intro path argument isCall
    cases isCall
  | succ fuel induction =>
    intro path argument isCall
    rw [parseCallsFrom] at isCall
    split at isCall
    · cases isCall
    · rcases mem_cons.mp isCall with rfl | later
      · exact fun _ => id
      · exact fun byte isByte => (dropWhile_sublist _).subset
          (mem_of_mem_tail (induction later isByte))

theorem argument_iff {argument : List UInt8} (noNul : 0 ∉ argument) :
    ((∀ write ∈ parsePathWrites argument, write.1 < DLENGTH) ∧
      ∀ first behind, ∀ index ∈ nameEqualReads first (dnameAfter argument behind) DLENGTH 0,
        index < DLENGTH) ↔ (argument.takeWhile (· ≠ slash)).length < DLENGTH := by
  have whole := argument.takeWhile_append_dropWhile (p := (· ≠ slash))
  have stops := head?_dropWhile_not (· ≠ slash) argument
  have ends : argument.dropWhile (· ≠ slash) = [] ∨
      (argument.dropWhile (· ≠ slash)).head? = some slash := by
    cases dropped : argument.dropWhile (· ≠ slash) with
    | nil => exact .inl rfl
    | cons byte bytes =>
      rw [dropped] at stops
      exact .inr (by simpa using stops)
  have fits := @component_iff (argument.takeWhile (· ≠ slash)) _ ?_ ?_ ends
  · rwa [whole] at fits
  · intro isByte
    simpa using mem_takeWhile_imp isByte
  · exact fun isByte => noNul ((takeWhile_sublist _).subset isByte)

/-- The names of a path fit into the buffers if and only if they have less than `DLENGTH`
bytes. -/
theorem namesFit_iff (noNul : 0 ∉ path) : NamesFit path ↔
    ∀ name ∈ names (walked path), name.length < DLENGTH := by
  have notLonger : (walked path).length ≤ path.length := by
    rw [walked]
    split
    · rw [length_tail]
      omega
    · exact Nat.le_refl _
  have noNulByte : 0 ∉ walked path := by
    rw [walked]
    split
    · exact fun isByte => noNul (mem_of_mem_tail isByte)
    · exact noNul
  have sameNames : names (walked path) = (parseCallsFrom path.length (walked path)).map
      (List.takeWhile (· ≠ slash)) := by
    rw [← parseCallsFrom_names, names, namesFrom_eq _ _ _ (Nat.le_refl _) notLonger]
  have component := fun argument (isCall : argument ∈ parseCallsFrom path.length (walked path)) =>
    @argument_iff argument fun isByte => noNulByte (subset_of_mem_parseCallsFrom _ isCall isByte)
  have filename := @filename_iff path fun isByte => noNul (filename_subset isByte)
  constructor
  · rintro ⟨parse, _, equal, _⟩
    rw [sameNames]
    rintro _ isName
    rcases mem_map.mp isName with ⟨argument, isCall, rfl⟩
    exact (component argument isCall).mp ⟨parse argument isCall, equal argument isCall⟩
  · intro short
    have shortName : (splitLast path).2.length < DLENGTH := by
      by_cases isEmpty : (splitLast path).2 = []
      · rw [isEmpty]
        decide
      · exact short _ (filename_mem_names isEmpty)
    rw [sameNames] at short
    have fits := fun argument isCall =>
      (component argument isCall).mpr (short _ (mem_map.mpr ⟨argument, isCall, rfl⟩))
    have nameFits := filename.mpr shortName
    exact ⟨fun argument isCall => (fits argument isCall).1, nameFits.1,
      fun argument isCall => (fits argument isCall).2, nameFits.2⟩

theorem namesFit_a : NamesFit [slash, 97] :=
  (namesFit_iff (by decide)).mpr (by decide)

/-- A component of 29 bytes is written past the end of `dname`. -/
theorem component_overruns : (List.replicate 29 97 : List UInt8).length ≤ 127 ∧
    (28, 97) ∈ parsePathWrites (List.replicate 29 97) ∧ ¬ NamesFit (List.replicate 29 97) := by
  have overrun : (28, 97) ∈ parsePathWrites (List.replicate 29 97) := by decide +kernel
  refine ⟨by decide, overrun, fun fits => ?_⟩
  exact absurd (fits.parsePath (List.replicate 29 97) (by decide +kernel) _ overrun) (by decide)

end Tnix.Fs
