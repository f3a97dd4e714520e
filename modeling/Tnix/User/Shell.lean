import Mathlib.Data.List.GetD
import Mathlib.Data.List.Infix
import Mathlib.Data.List.TakeWhile
import Tnix.Util.String

/-! # The parser of `sh.c`

A line is the list of its bytes; a pointer into `input` is an index. -/

namespace Tnix.Shell

open List Util

def space : UInt8 := 32

def cdWord : List UInt8 := [99, 100]

def lsWord : List UInt8 := [108, 115]

def binPath : List UInt8 := [47, 98, 105, 110, 47]

def EPATH_SIZE : Nat := 32

inductive Command
  | CD
  | LS
  | OTHER

/-- What `parse` leaves: the line with the NUL in it, `*op`, `cmd` and the stores to `epath`. -/
structure Parsed where
  input : List UInt8
  op : Option Nat
  cmd : Command
  epath : List (Nat × UInt8)

/-- The loop over the line from `s` on, with `*(s - 1)`; `none` is `return false`. -/
def scan (prev : UInt8) (first : Bool) (op : Option Nat) (s : Nat) :
    List UInt8 → Option (List UInt8 × Option Nat)
  | [] => if prev = space then none else some ([], op)
  | byte :: rest =>
    if byte = space ∧ prev = space then none
    else if byte = space ∧ first = true then
      (scan 0 false (some (s + 1)) (s + 1) rest).map (Prod.map (0 :: ·) id)
    else (scan byte first op (s + 1) rest).map (Prod.map (byte :: ·) id)

/-- The end of `parse`, with the string at `input`. -/
def command (input : List UInt8) (op : Option Nat) : Parsed :=
  let text := input.takeWhile (· ≠ 0)
  if text = cdWord then ⟨input, op, .CD, []⟩
  else if text = lsWord then ⟨input, op, .LS, []⟩
  else ⟨input, op, .OTHER, strcpyFrom binPath.length text⟩

/-- `main` does not parse an empty line. -/
def parse : List UInt8 → Option Parsed
  | [] => none
  | byte :: rest =>
    if byte = space then none
    else (scan byte true none 1 rest).map fun left => command (byte :: left.1) left.2

/-! ## The grammar -/

/-- Two spaces in a row, or a space at the end. -/
def Spaced (text : List UInt8) : Prop := [space, space] <:+: text ∨ text.getLast? = some space

instance (text : List UInt8) : Decidable (Spaced text) := inferInstanceAs (Decidable (_ ∨ _))

def word (line : List UInt8) : List UInt8 := line.takeWhile (· ≠ space)

def after (line : List UInt8) : List UInt8 := (line.dropWhile (· ≠ space)).tail

structure Accepted (line : List UInt8) (parsed : Parsed) : Prop where
  word : parsed.input.takeWhile (· ≠ 0) = word line
  op : parsed.op.map (parsed.input.drop ·) = if space ∈ line then some (after line) else none
  epath : Shell.word line ≠ cdWord → Shell.word line ≠ lsWord →
    (∀ store ∈ parsed.epath, store.1 < EPATH_SIZE) ∧
      ∀ memory : Nat → UInt8, (∀ i < binPath.length, memory i = binPath.getD i 0) →
        ∀ i ≤ (binPath ++ Shell.word line).length,
          storeAll parsed.epath memory i = (binPath ++ Shell.word line).getD i 0

def Parses (line : List UInt8) : Prop :=
  ((parse line).isSome = true ↔ line.head? ≠ some space ∧ ¬Spaced line) ∧
    ∀ parsed, parse line = some parsed → Accepted line parsed

/-- A line that is rejected rightly, or whose first space, if any, is before a byte that is not a
space, with a command that fits into `epath`. -/
def Plain (line : List UInt8) : Prop :=
  line.head? = some space ∨ Spaced (after line) ∨
    (space ∈ line → ∃ byte, (after line).head? = some byte ∧ byte ≠ space) ∧
      binPath.length + (word line).length < EPATH_SIZE

/-! ## The loop -/

variable {line rest : List UInt8} {a b prev : UInt8} {op : Option Nat} {s : Nat}

theorem spaced_singleton : Spaced [a] ↔ a = space := by
  simp [Spaced, List.infix_cons_iff]

theorem spaced_cons_cons : Spaced (a :: b :: rest) ↔
    a = space ∧ b = space ∨ Spaced (b :: rest) := by
  rw [Spaced, List.infix_cons_iff, cons_prefix_cons, cons_prefix_cons, getLast?_cons_cons,
    or_assoc, Spaced]
  simp [eq_comm]

theorem spaced_cons (other : a ≠ space) : Spaced (a :: rest) ↔ Spaced rest := by
  cases rest with
  | nil => exact iff_of_false (fun spaced => other (spaced_singleton.mp spaced)) (by decide)
  | cons b rest => simp [spaced_cons_cons, other]

theorem spaced_space : Spaced (space :: rest) ↔
    Spaced rest ∨ ¬∃ byte, rest.head? = some byte ∧ byte ≠ space := by
  cases rest with
  | nil => simp [spaced_singleton]
  | cons b rest => simp [spaced_cons_cons, or_comm]

theorem scan_later : scan prev false op s rest =
    if Spaced (prev :: rest) then none else some (rest, op) := by
  induction rest generalizing prev s with
  | nil => simp only [scan, spaced_singleton]
  | cons byte rest induction =>
    simp only [scan, spaced_cons_cons, induction, and_comm (a := byte = space)]
    by_cases double : prev = space ∧ byte = space
    · rw [if_pos double, if_pos (.inl double)]
    · simp only [double, if_false, false_or, Bool.false_eq_true, false_and]
      split <;> rfl

theorem scan_append (op : Option Nat) (s : Nat) (rest : List UInt8) {before : List UInt8}
    (noSpace : space ∉ before) (other : prev ≠ space) :
    ∃ last, last ≠ space ∧ scan prev true op s (before ++ rest) =
      (scan last true op (s + before.length) rest).map (Prod.map (before ++ ·) id) := by
  induction before generalizing prev s with
  | nil => exact ⟨prev, other, Option.map_id'.symm⟩
  | cons byte before induction =>
    rw [mem_cons, not_or] at noSpace
    rcases induction (s + 1) noSpace.2 (Ne.symm noSpace.1) with ⟨last, isOther, scanned⟩
    refine ⟨last, isOther, ?_⟩
    rw [cons_append, scan, if_neg fun double => noSpace.1 double.1.symm,
      if_neg fun first => noSpace.1 first.1.symm, scanned, Option.map_map, length_cons,
      Nat.add_right_comm, Nat.add_assoc]
    rfl

/-! ## Lines -/

section
variable {before : List UInt8}

theorem parse_word (nonempty : line ≠ []) (noSpace : space ∉ line) :
    parse line = some (command line none) := by
  cases line with
  | nil => exact absurd rfl nonempty
  | cons byte rest =>
    rw [mem_cons, not_or] at noSpace
    rcases scan_append none 1 [] noSpace.2 (Ne.symm noSpace.1) with ⟨last, isOther, scanned⟩
    rw [append_nil] at scanned
    rw [parse, if_neg (Ne.symm noSpace.1), scanned, scan, if_neg isOther]
    simp

/-- The first space is overwritten, so what follows it is checked as if there were none. -/
theorem parse_first (behind : List UInt8) (nonempty : before ≠ []) (noSpace : space ∉ before) :
    parse (before ++ space :: behind) = if Spaced behind then none
      else some (command (before ++ 0 :: behind) (some (before.length + 1))) := by
  cases before with
  | nil => exact absurd rfl nonempty
  | cons byte before =>
    rw [mem_cons, not_or] at noSpace
    rcases scan_append none 1 (space :: behind) noSpace.2 (Ne.symm noSpace.1) with
      ⟨last, isOther, scanned⟩
    rw [cons_append, parse, if_neg (Ne.symm noSpace.1), scanned, scan,
      if_neg fun double => isOther double.2, if_pos ⟨rfl, rfl⟩, scan_later,
      if_congr (spaced_cons (by decide)) rfl rfl]
    split
    · rfl
    · simp [Nat.add_comm]

theorem spaced_append (noSpace : space ∉ before) : Spaced (before ++ rest) ↔ Spaced rest := by
  induction before with
  | nil => rfl
  | cons byte before induction =>
    rw [mem_cons, not_or] at noSpace
    rw [cons_append, spaced_cons (Ne.symm noSpace.1), induction noSpace.2]

theorem word_append (behind : List UInt8) (noSpace : space ∉ before) :
    word (before ++ space :: behind) = before ∧ after (before ++ space :: behind) = behind := by
  have all : ∀ byte ∈ before, (decide (byte ≠ space)) = true := fun byte member =>
    decide_eq_true fun same => noSpace (same ▸ member)
  rw [word, after, takeWhile_append_of_pos all, dropWhile_append_of_pos all]
  simp

theorem word_eq (noSpace : space ∉ line) : word line = line ∧ after line = [] := by
  have all : ∀ byte ∈ line, (decide (byte ≠ space)) = true := fun byte member =>
    decide_eq_true fun same => noSpace (same ▸ member)
  rw [word, after, takeWhile_eq_self_iff.mpr all, dropWhile_eq_nil_iff.mpr all]
  exact ⟨rfl, rfl⟩

theorem accepted_iff {input : List UInt8} (text : input.takeWhile (· ≠ 0) = word line)
    (isOp : op.map (input.drop ·) = if space ∈ line then some (after line) else none) :
    Accepted line (command input op) ↔ binPath.length + (word line).length < EPATH_SIZE := by
  have same : (command input op).input = input ∧ (command input op).op = op := by
    rw [command]
    split
    · exact ⟨rfl, rfl⟩
    · split <;> exact ⟨rfl, rfl⟩
  have isWord : (command input op).input.takeWhile (· ≠ 0) = word line := by rw [same.1, text]
  have points : (command input op).op.map ((command input op).input.drop ·) =
      if space ∈ line then some (after line) else none := by rw [same.1, same.2, isOp]
  by_cases builtin : word line = cdWord ∨ word line = lsWord
  · refine iff_of_true ⟨isWord, points, fun notCd notLs => ?_⟩ ?_
    · exact absurd builtin (not_or.mpr ⟨notCd, notLs⟩)
    · rcases builtin with isCd | isLs
      · rw [isCd]
        decide
      · rw [isLs]
        decide
  · rw [not_or] at builtin
    have stores : (command input op).epath = strcpyFrom binPath.length (word line) := by
      rw [command, text, if_neg builtin.1, if_neg builtin.2]
    constructor
    · intro accepted
      have below := (accepted.epath builtin.1 builtin.2).1
      rwa [stores, strcpyFrom_below] at below
    · intro fits
      refine ⟨isWord, points, fun _ _ => ?_⟩
      rw [stores, strcpyFrom_below]
      refine ⟨fits, fun memory isBin i atMost => ?_⟩
      rw [storeAll_strcpyFrom]
      rw [length_append] at atMost
      by_cases inside : i < binPath.length
      · rw [if_neg (by omega), isBin i inside, getD_append _ _ _ _ inside]
      · rw [if_pos (by omega), getD_append_right _ _ _ _ (Nat.not_lt.mp inside)]

theorem parses_command {input : List UInt8} (outcome : parse line = some (command input op))
    (text : input.takeWhile (· ≠ 0) = word line)
    (isOp : op.map (input.drop ·) = if space ∈ line then some (after line) else none) :
    Parses line ↔ (line.head? ≠ some space ∧ ¬Spaced line) ∧
      binPath.length + (word line).length < EPATH_SIZE := by
  rw [Parses, outcome, ← accepted_iff text isOp]
  simp

theorem parses_iff (line : List UInt8) (nonempty : line ≠ []) (noNul : 0 ∉ line) :
    Parses line ↔ Plain line := by
  have noNulText {text : List UInt8} (subset : text ⊆ line) :
      ∀ byte ∈ text, decide (byte ≠ 0) = true := fun byte member =>
    decide_eq_true fun isNul => noNul (isNul ▸ subset member)
  by_cases leading : line.head? = some space
  · rcases head?_eq_some_iff.mp leading with ⟨rest, rfl⟩
    refine iff_of_true ⟨?_, ?_⟩ (.inl leading)
    · simp [parse]
    · simp [parse]
  by_cases hasSpace : space ∈ line
  · rcases eq_append_cons_of_mem hasSpace with ⟨before, behind, rfl, noSpace⟩
    have someBefore : before ≠ [] := fun empty => leading (by rw [empty]; rfl)
    have outcome := parse_first behind someBefore noSpace
    rcases word_append behind noSpace with ⟨isWord, isAfter⟩
    by_cases spaced : Spaced behind
    · rw [if_pos spaced] at outcome
      refine iff_of_true ⟨?_, ?_⟩ (.inr (.inl (isAfter.symm ▸ spaced)))
      · rw [outcome, spaced_append noSpace, spaced_space]
        simp [spaced]
      · rw [outcome]
        rintro _ ⟨⟩
    · rw [if_neg spaced] at outcome
      rw [parses_command outcome, spaced_append noSpace, spaced_space, Plain, isAfter]
      · simp only [leading, spaced, hasSpace, ne_eq, not_false_eq_true, true_and, false_or,
          not_not, forall_const]
      · rw [isWord, takeWhile_append_of_pos (noNulText (subset_append_left _ _))]
        simp
      · rw [if_pos hasSpace, isAfter]
        simp
  · rcases word_eq hasSpace with ⟨isWord, isAfter⟩
    have unspaced : ¬Spaced line := by
      rw [← append_nil line, spaced_append hasSpace]
      decide
    rw [parses_command (parse_word nonempty hasSpace) _ (if_neg hasSpace).symm, Plain, isAfter]
    · have empty : ¬Spaced [] := by decide
      simp only [leading, unspaced, hasSpace, empty, ne_eq, not_false_eq_true, true_and, false_or,
        false_imp_iff]
    · rw [isWord]
      exact takeWhile_eq_self_iff.mpr (noNulText (Subset.refl _))

theorem parses_cat : Parses [99, 97, 116, space, 97] :=
  (parses_iff _ (by decide) (by decide)).mpr
    (.inr (.inr ⟨fun _ => ⟨97, by decide, by decide⟩, by decide⟩))

/-- `a  b` is accepted. -/
theorem parse_double : ¬Parses [97, space, space, 98] := fun parses =>
  (parses.1.mp (by decide)).2 (by decide)

end
end Tnix.Shell
