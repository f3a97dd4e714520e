import Tnix.Util.List

/-! # Families of lists

Lists that have no node in common, as the sequences of their nodes. -/

namespace Tnix

open Function List

/-! ## Lists read backwards -/

namespace NodeLinks

variable {Node : Type} {links : NodeLinks Node}

def reverse (links : NodeLinks Node) : NodeLinks Node := ⟨links.prev, links.next⟩

theorem Path.reverse {a b : Node} {xs : List Node} (path : links.Path a xs b) :
    links.reverse.Path b xs.reverse a := by
  induction xs generalizing a with
  | nil => exact path.symm
  | cons x xs induction =>
    rw [reverse_cons]
    exact path_append_cons.mpr ⟨induction path.2, path.1.symm⟩

theorem Circular.reverse {head : Node} {nodes : List Node} (circular : links.Circular head nodes) :
    links.reverse.Circular head nodes.reverse :=
  ⟨((reverse_perm nodes).cons head).nodup_iff.mpr circular.nodup, circular.path.reverse⟩

theorem Path.next {a b : Node} : ∀ {xs : List Node}, links.Path a xs b →
    links.next a = some (xs.headD b)
  | [], path => path.1
  | _ :: _, path => path.1.1

end NodeLinks

namespace Util

variable {Node : Type} [DecidableEq Node] {links : NodeLinks Node}

theorem listPushfront_reverse (links : NodeLinks Node) (head node : Node) :
    listPushfront links head node =
      (listPushback links.reverse head node).map NodeLinks.reverse := by
  simp only [listPushfront, listPushback, Option.bind_eq_bind, Option.map_bind]
  rfl

theorem listPushfront_circular {head node : Node} {nodes : List Node}
    (circular : links.Circular head nodes) (new : node ∉ head :: nodes) :
    ∃ after, listPushfront links head node = some after ∧ after.Circular head (node :: nodes) ∧
      ∀ x, x ∉ node :: head :: nodes → SameAt links after x := by
  have permuted := (reverse_perm nodes).cons head
  rcases listPushback_circular circular.reverse (mt permuted.mem_iff.mp new) with
    ⟨after, pushed, circular, same⟩
  refine ⟨after.reverse, ?_, ?_, fun x other => (same x ?_).symm⟩
  · rw [listPushfront_reverse, pushed]
    rfl
  · have reversed := circular.reverse
    rwa [reverse_append, reverse_reverse] at reversed
  · rwa [(permuted.cons node).mem_iff]

/-! ## Disjoint lists -/

section
variable {ι : Type} {head : ι → Node} {nodes : ι → List Node} {after : NodeLinks Node}
  {i : ι} {node : Node} {rest : List Node}

/-- Well-formed lists that have no node in common. -/
structure Family (links : NodeLinks Node) (head : ι → Node) (nodes : ι → List Node) : Prop where
  circular : ∀ i, links.Circular (head i) (nodes i)
  disjoint : ∀ {i j x}, x ∈ head i :: nodes i → x ∈ head j :: nodes j → i = j

namespace Family

variable [DecidableEq ι] (family : Family links head nodes)
include family

omit [DecidableEq Node] in
theorem change (outside : ∀ j, j ≠ i → node ∉ head j :: nodes j)
    (circular : after.Circular (head i) rest)
    (covered : ∀ x ∈ head i :: rest, x ∈ node :: head i :: nodes i)
    (same : ∀ x, x ∉ node :: head i :: nodes i → SameAt links after x) :
    Family after head (update nodes i rest) := by
  have apart {j x} (other : j ≠ i) (member : x ∈ head j :: nodes j) :
      x ∉ node :: head i :: nodes i := by
    intro inside
    rcases mem_cons.mp inside with rfl | inside
    · exact outside j other member
    · exact other (family.disjoint member inside)
  constructor
  · intro j
    by_cases here : j = i
    · rw [here, update_self]
      exact circular
    · rw [update_of_ne here]
      exact (family.circular j).congr (fun x member => (same x (apart here member)).1)
        fun x member => (same x (apart here member)).2
  · intro j k x inJ inK
    by_cases isJ : j = i <;> by_cases isK : k = i
    · rw [isJ, isK]
    · subst isJ
      rw [update_self] at inJ
      rw [update_of_ne isK] at inK
      exact absurd (covered x inJ) (apart isK inK)
    · subst isK
      rw [update_self] at inK
      rw [update_of_ne isJ] at inJ
      exact absurd (covered x inK) (apart isJ inJ)
    · rw [update_of_ne isJ] at inJ
      rw [update_of_ne isK] at inK
      exact family.disjoint inJ inK

theorem pushback (i : ι) (new : ∀ j, node ∉ head j :: nodes j) :
    ∃ after, listPushback links (head i) node = some after ∧
      Family after head (update nodes i (nodes i ++ [node])) := by
  rcases listPushback_circular (family.circular i) (new i) with ⟨after, pushed, circular, same⟩
  refine ⟨after, pushed, family.change (fun j _ => new j) circular (fun x member => ?_) same⟩
  rwa [← cons_append, (perm_append_singleton _ _).mem_iff] at member

theorem pushfront (i : ι) (new : ∀ j, node ∉ head j :: nodes j) :
    ∃ after, listPushfront links (head i) node = some after ∧
      Family after head (update nodes i (node :: nodes i)) := by
  rcases listPushfront_circular (family.circular i) (new i) with ⟨after, pushed, circular, same⟩
  refine ⟨after, pushed, family.change (fun j _ => new j) circular (fun x member => ?_) same⟩
  rwa [(Perm.swap node (head i) _).mem_iff] at member

theorem remove (isIn : node ∈ nodes i) :
    ∃ after, listRemove links node = some after ∧
      Family after head (update nodes i ((nodes i).erase node)) ∧
      ∀ j, node ∉ head j :: update nodes i ((nodes i).erase node) j := by
  rcases exists_erase_eq isIn with ⟨before, behind, -, shape, erased⟩
  have circular := family.circular i
  rw [shape] at circular
  rcases listRemove_circular circular with ⟨after, removed, circularAfter, same⟩
  have permuted : (head i :: nodes i).Perm (node :: head i :: (before ++ behind)) := by
    rw [shape]
    exact (perm_middle.cons _).trans (Perm.swap _ _ _)
  have gone := (nodup_cons.mp (permuted.nodup_iff.mp (family.circular i).nodup)).1
  have outside {j} (other : j ≠ i) : node ∉ head j :: nodes j := fun member =>
    other (family.disjoint member (mem_cons_of_mem _ isIn))
  rw [erased]
  refine ⟨after, removed, family.change (fun _ => outside) circularAfter ?_ ?_, fun j => ?_⟩
  · exact fun x member => mem_cons_of_mem _ (permuted.mem_iff.mpr (mem_cons_of_mem _ member))
  · exact fun x other => same x fun member => other (mem_cons_of_mem _ (shape ▸ member))
  · by_cases here : j = i
    · rw [here, update_self]
      exact gone
    · rw [update_of_ne here]
      exact outside here

end Family

/-! ## Traversals -/

/-- The body of the loops of `clean_mm_source` and `sys_exit`: the node is taken off its list
and, where there is one, put on another list. -/
def detach (target : Option Node) (links : NodeLinks Node) (node : Node) :
    Option (NodeLinks Node) := do
  let links ← listRemove links node
  match target with
  | none => some links
  | some head => listPushback links head node

/-- The loops, with the nodes that they visit; `none` if there are more than `fuel` turns or
a null pointer is followed. The next node is saved before the body. -/
def traverseFrom (target : Option Node) (head : Node) :
    Nat → Node → NodeLinks Node → Option (List Node × NodeLinks Node)
  | 0, _, _ => none
  | fuel + 1, node, links =>
    if node = head then some ([], links)
    else do
      let next ← links.next node
      let links ← detach target links node
      let (visited, links) ← traverseFrom target head fuel next links
      some (node :: visited, links)

def traverse (target : Option Node) (head : Node) (fuel : Nat) (links : NodeLinks Node) :
    Option (List Node × NodeLinks Node) := do
  let node ← links.next head
  traverseFrom target head fuel node links

variable [DecidableEq ι]

/-- The sequences when `moved` was taken from the front of one, with `rest` left there. -/
def shifted (nodes : ι → List Node) (i : ι) (target : Option ι) (moved rest : List Node) :
    ι → List Node :=
  match target with
  | none => update nodes i rest
  | some j => update (update nodes i rest) j (update nodes i rest j ++ moved)

/-- A traversal visits each node of the list once, in their order, and ends. -/
def Traverses (links : NodeLinks Node) (head : ι → Node) (nodes : ι → List Node) (i : ι)
    (target : Option ι) : Prop :=
  (nodes i).Nodup ∧ ∀ fuel, (nodes i).length < fuel → ∃ after,
    traverse (target.map head) (head i) fuel links = some (nodes i, after) ∧
      Family after head (shifted nodes i target (nodes i) [])

variable {target : Option ι}

omit [DecidableEq Node] in
theorem shifted_nil (empty : nodes i = []) : shifted nodes i target [] [] = nodes := by
  cases target with
  | none => rw [shifted, ← empty, update_eq_self]
  | some j => rw [shifted, append_nil, update_eq_self, ← empty, update_eq_self]

omit [DecidableEq Node] in
theorem shifted_shifted (other : target ≠ some i) (moved : List Node) :
    shifted (shifted nodes i target [node] rest) i target moved [] =
      shifted nodes i target (node :: moved) [] := by
  cases target with
  | none => exact update_idem _ _ _
  | some j =>
    have different : j ≠ i := fun same => other (congrArg some same)
    simp only [shifted, update_of_ne different, update_self, append_assoc, singleton_append]
    rw [update_comm different.symm, update_idem, update_comm different, update_idem]

section
variable (family : Family links head nodes)
include family

theorem Family.detach (first : nodes i = node :: rest) (target : Option ι) :
    ∃ after, Util.detach (target.map head) links node = some after ∧
      Family after head (shifted nodes i target [node] rest) := by
  rcases family.remove (first ▸ mem_cons_self) with ⟨after, removed, familyAfter, gone⟩
  rw [first, erase_cons_head] at familyAfter gone
  rw [Util.detach, removed]
  cases target with
  | none => exact ⟨after, rfl, familyAfter⟩
  | some j => exact familyAfter.pushback j gone

/-- One turn of the loop. -/
theorem Family.traverseFrom_cons (first : nodes i = node :: rest) (target : Option ι) :
    ∃ after, Family after head (shifted nodes i target [node] rest) ∧
      ∀ fuel, Util.traverseFrom (target.map head) (head i) (fuel + 1) node links =
        (Util.traverseFrom (target.map head) (head i) fuel (rest.headD (head i)) after).map
          fun result => (node :: result.1, result.2) := by
  have circular := family.circular i
  rw [first] at circular
  have notHead : node ≠ head i := fun same =>
    (nodup_cons.mp circular.nodup).1 (same ▸ mem_cons_self)
  rcases family.detach first target with ⟨after, detached, familyAfter⟩
  refine ⟨after, familyAfter, fun fuel => ?_⟩
  simp only [Util.traverseFrom, if_neg notHead, circular.path.2.next, detached,
    Option.bind_eq_bind, Option.bind_some]
  exact Option.map_eq_bind.symm

theorem Family.traverseFrom (other : target ≠ some i)
    {fuel : Nat} (enough : (nodes i).length < fuel) :
    ∃ after, Util.traverseFrom (target.map head) (head i) fuel ((nodes i).headD (head i)) links =
        some (nodes i, after) ∧
      Family after head (shifted nodes i target (nodes i) []) := by
  generalize isList : nodes i = list at enough ⊢
  induction list generalizing links nodes fuel with
  | nil =>
    cases fuel with
    | zero => cases enough
    | succ fuel =>
      refine ⟨links, if_pos rfl, ?_⟩
      rwa [shifted_nil isList]
  | cons node rest induction =>
    cases fuel with
    | zero => cases enough
    | succ fuel =>
      rcases family.traverseFrom_cons isList target with ⟨after, familyAfter, turn⟩
      have left : shifted nodes i target [node] rest i = rest := by
        cases target with
        | none => exact update_self _ _ _
        | some j =>
          have different : i ≠ j := fun same => other (congrArg some same.symm)
          exact (update_of_ne different _ _).trans (update_self _ _ _)
      rcases induction familyAfter left (Nat.lt_of_succ_lt_succ enough) with
        ⟨final, ran, familyFinal⟩
      refine ⟨final, ?_, ?_⟩
      · rw [headD_cons, turn, ran]
        rfl
      · rwa [shifted_shifted other] at familyFinal

/-- Nodes that are put behind their own list are met again: the saved node is always one of
them. -/
theorem Family.traverseFrom_endless {second : Node} (isList : nodes i = node :: second :: rest)
    (fuel : Nat) : Util.traverseFrom (some (head i)) (head i) fuel node links = none := by
  induction fuel generalizing links nodes node second rest with
  | zero => rfl
  | succ fuel induction =>
    rcases family.traverseFrom_cons isList (some i) with ⟨after, familyAfter, turn⟩
    have moved : shifted nodes i (some i) [node] (second :: rest) i = second :: (rest ++ [node]) := by
      simp [shifted]
    rw [Option.map_some] at turn
    rcases rest with _ | ⟨third, rest⟩
    · rw [turn, headD_cons, induction familyAfter moved, Option.map_none]
    · rw [turn, headD_cons, induction familyAfter moved, Option.map_none]

theorem Family.traverses_iff (i : ι) (target : Option ι) :
    Traverses links head nodes i target ↔ (target = some i → (nodes i).length ≤ 1) := by
  have distinct := (nodup_cons.mp (family.circular i).nodup).2
  have starts := (family.circular i).path.next
  by_cases own : target = some i
  · subst own
    rcases isList : nodes i with _ | ⟨node, _ | ⟨second, rest⟩⟩
    · refine iff_of_true ⟨distinct, fun fuel enough => ?_⟩ fun _ => by simp
      rw [isList] at starts enough ⊢
      cases fuel with
      | zero => cases enough
      | succ fuel =>
        refine ⟨links, ?_, by rwa [shifted_nil isList]⟩
        rw [traverse, starts]
        exact if_pos rfl
    · refine iff_of_true ⟨distinct, fun fuel enough => ?_⟩ fun _ => by simp
      rw [isList] at starts enough ⊢
      rcases fuel with _ | _ | fuel
      · cases enough
      · exact absurd enough (by simp)
      · rcases family.traverseFrom_cons isList (some i) with ⟨after, familyAfter, turn⟩
        refine ⟨after, ?_, familyAfter⟩
        rw [traverse, starts, Option.bind_eq_bind, Option.bind_some, headD_cons, turn]
        exact congrArg _ (if_pos rfl)
    · refine iff_of_false (fun traverses => ?_) fun short => absurd (short rfl) (by simp)
      rcases traverses.2 _ (Nat.lt_succ_self _) with ⟨after, ran, _⟩
      rw [traverse, starts, isList, Option.bind_eq_bind, Option.bind_some, headD_cons,
        Option.map_some, family.traverseFrom_endless isList] at ran
      cases ran
  · refine iff_of_true ⟨distinct, fun fuel enough => ?_⟩ fun same => absurd same own
    rw [traverse, starts]
    exact family.traverseFrom own enough

end

/-- The operations on the links are those on the sequences; a traversal visits the nodes of its
list once and ends if and only if it does not put two or more of them behind their own list. -/
theorem lists_refine (family : Family links head nodes) :
    (∀ i node, (∀ j, node ∉ head j :: nodes j) →
      (∃ after, listPushback links (head i) node = some after ∧
        Family after head (update nodes i (nodes i ++ [node]))) ∧
      ∃ after, listPushfront links (head i) node = some after ∧
        Family after head (update nodes i (node :: nodes i))) ∧
    (∀ i, ∀ node ∈ nodes i, ∃ after, listRemove links node = some after ∧
      Family after head (update nodes i ((nodes i).erase node))) ∧
    ∀ (i : ι) (target : Option ι), Traverses links head nodes i target ↔
      (target = some i → (nodes i).length ≤ 1) := by
  refine ⟨fun i node new => ⟨family.pushback i new, family.pushfront i new⟩, ?_,
    family.traverses_iff⟩
  intro i node isIn
  rcases family.remove isIn with ⟨after, removed, familyAfter, -⟩
  exact ⟨after, removed, familyAfter⟩

/-- A list with head 0 and the nodes 2 and 3, and one with head 1 and no nodes. -/
def twoChildren : NodeLinks Nat := ⟨([2, 1, 3, 0][·]?), ([3, 1, 0, 2][·]?)⟩

theorem family_twoChildren :
    Family twoChildren Bool.toNat fun isEmpty => if isEmpty then [] else [2, 3] := by
  constructor
  · rintro (_ | _)
    · exact ⟨by decide, ⟨rfl, rfl⟩, ⟨rfl, rfl⟩, rfl, rfl⟩
    · exact ⟨by decide, rfl, rfl⟩
  · rintro (_ | _) (_ | _) x <;> grind

/-- The children of one task are handed over to the other. -/
theorem lists_refine_twoChildren : ∃ after,
    traverse (some 1) 0 3 twoChildren = some ([2, 3], after) ∧
    Family after Bool.toNat (shifted (fun isEmpty => if isEmpty then [] else [2, 3]) false
      (some true) [2, 3] []) :=
  (((lists_refine family_twoChildren).2.2 false (some true)).mpr (by rintro ⟨⟩)).2 3 (by decide)

/-- The children are handed over to the task that has them. -/
theorem traverse_twoChildren_endless :
    Family twoChildren Bool.toNat (fun isEmpty => if isEmpty then [] else [2, 3]) ∧
      (∀ fuel, traverse (some 0) 0 fuel twoChildren = none) ∧
      ¬ Traverses twoChildren Bool.toNat (fun isEmpty => if isEmpty then [] else [2, 3]) false
        (some false) := by
  refine ⟨family_twoChildren, fun fuel => ?_, fun traverses => ?_⟩
  · exact @Family.traverseFrom_endless Nat _ _ Bool _ _ false 2 [] _ family_twoChildren 3 rfl fuel
  · exact absurd ((family_twoChildren.traverses_iff false _).mp traverses rfl) (by decide)

end
end Util
end Tnix
