import Mathlib.Data.List.Nodup

/-! # Circular doubly linked lists

Nodes with two links each. A head and the nodes behind it, in a logical order, form a
circular list when every link leads to the neighbour. -/

namespace Tnix

open List
universe u

/-- The links of all nodes; `none` is the null pointer. -/
structure NodeLinks (Node : Type u) where
  next : Node → Option Node
  prev : Node → Option Node

namespace NodeLinks

variable {Node : Type u} {links after : NodeLinks Node} {a b c : Node} {xs ys : List Node}

def Adjacent (links : NodeLinks Node) (a b : Node) : Prop :=
  links.next a = some b ∧ links.prev b = some a

/-- The links lead from `a` through the nodes of a list to `b`, and back. -/
def Path (links : NodeLinks Node) : Node → List Node → Node → Prop
  | a, [], b => links.Adjacent a b
  | a, x :: xs, b => links.Adjacent a x ∧ links.Path x xs b

def lastOf : Node → List Node → Node
  | a, [] => a
  | _, x :: xs => lastOf x xs

theorem lastOf_mem : ∀ (a : Node) (xs : List Node), lastOf a xs ∈ a :: xs
  | _, [] => mem_singleton_self _
  | _, x :: xs => mem_cons_of_mem _ (lastOf_mem x xs)

theorem path_append_cons {x : Node} :
    links.Path a (xs ++ x :: ys) b ↔ links.Path a xs x ∧ links.Path x ys b := by
  induction xs generalizing a with
  | nil => exact Iff.rfl
  | cons y xs induction =>
    rw [cons_append, Path, induction, Path, and_assoc]

namespace Path

variable (path : links.Path a xs b)
include path

theorem adjacent_last : links.Adjacent (lastOf a xs) b := by
  induction xs generalizing a with
  | nil => exact path
  | cons x xs induction => exact induction path.2

theorem congr (sameNext : ∀ x ∈ a :: xs, after.next x = links.next x)
    (samePrev : ∀ x ∈ xs ++ [b], after.prev x = links.prev x) : after.Path a xs b := by
  induction xs generalizing a with
  | nil =>
    exact ⟨(sameNext a mem_cons_self).trans path.1, (samePrev b mem_cons_self).trans path.2⟩
  | cons x xs induction =>
    refine ⟨⟨(sameNext a mem_cons_self).trans path.1.1,
      (samePrev x mem_cons_self).trans path.1.2⟩, induction path.2 ?_ ?_⟩
    · exact fun y member => sameNext y (mem_cons_of_mem _ member)
    · exact fun y member => samePrev y (mem_cons_of_mem _ member)

theorem retarget (nodup : (a :: xs).Nodup)
    (sameNext : ∀ x ∈ a :: xs, x ≠ lastOf a xs → after.next x = links.next x)
    (samePrev : ∀ x ∈ xs, after.prev x = links.prev x)
    (adjacent : after.Adjacent (lastOf a xs) c) : after.Path a xs c := by
  induction xs generalizing a with
  | nil => exact adjacent
  | cons x xs induction =>
    have notLast : a ≠ lastOf x xs := by
      rintro rfl
      exact (nodup_cons.mp nodup).1 (lastOf_mem x xs)
    refine ⟨⟨(sameNext a mem_cons_self notLast).trans path.1.1,
      (samePrev x mem_cons_self).trans path.1.2⟩,
      induction path.2 (nodup_cons.mp nodup).2 ?_ ?_ adjacent⟩
    · exact fun y member => sameNext y (mem_cons_of_mem _ member)
    · exact fun y member => samePrev y (mem_cons_of_mem _ member)

end Path

/-- The nodes of a list are in a circle behind its head. -/
structure Circular (links : NodeLinks Node) (head : Node) (nodes : List Node) : Prop where
  nodup : (head :: nodes).Nodup
  path : links.Path head nodes head

namespace Circular

variable {head node : Node} {nodes : List Node}

theorem congr (circular : links.Circular head nodes)
    (sameNext : ∀ x ∈ head :: nodes, after.next x = links.next x)
    (samePrev : ∀ x ∈ head :: nodes, after.prev x = links.prev x) :
    after.Circular head nodes := by
  refine ⟨circular.nodup, circular.path.congr sameNext ?_⟩
  intro x member
  rw [mem_append, mem_singleton, or_comm, ← mem_cons] at member
  exact samePrev x member

theorem push (circular : links.Circular head nodes) (new : node ∉ head :: nodes)
    (sameNext : ∀ x ∈ head :: nodes, x ≠ lastOf head nodes → after.next x = links.next x)
    (samePrev : ∀ x ∈ nodes, after.prev x = links.prev x)
    (before : after.Adjacent (lastOf head nodes) node) (behind : after.Adjacent node head) :
    after.Circular head (nodes ++ [node]) := by
  refine ⟨?_, path_append_cons.mpr
    ⟨circular.path.retarget circular.nodup sameNext samePrev before, behind⟩⟩
  rw [← cons_append, nodup_append_comm, singleton_append, nodup_cons]
  exact ⟨new, circular.nodup⟩

theorem unlink (circular : links.Circular head (xs ++ node :: ys))
    (sameNext : ∀ x ∈ head :: (xs ++ ys), x ≠ lastOf head xs → after.next x = links.next x)
    (samePrev : ∀ x ∈ head :: (xs ++ ys), links.next node ≠ some x →
      after.prev x = links.prev x)
    (joined : ∀ x, links.next node = some x → after.Adjacent (lastOf head xs) x) :
    after.Circular head (xs ++ ys) := by
  have permuted : (head :: (xs ++ node :: ys)).Perm (node :: head :: (xs ++ ys)) :=
    (perm_middle.cons head).trans (List.Perm.swap _ _ _)
  have nodup := (nodup_cons.mp (permuted.nodup_iff.mp circular.nodup)).2
  have toNode := path_append_cons.mp circular.path
  have beforeNodup : (head :: xs).Nodup := by
    rw [← cons_append] at nodup
    exact (nodup_append.mp nodup).1
  refine ⟨nodup, ?_⟩
  cases ys with
  | nil =>
    rw [append_nil] at nodup sameNext samePrev ⊢
    have nextHead : links.next node = some head := toNode.2.1
    refine toNode.1.retarget beforeNodup sameNext ?_ (joined head nextHead)
    intro x member
    refine samePrev x (mem_cons_of_mem _ member) ?_
    rw [nextHead]
    rintro ⟨⟩
    exact (nodup_cons.mp nodup).1 member
  | cons y ys =>
    have nextY : links.next node = some y := toNode.2.1.1
    have inSuffix : ∀ x ∈ y :: ys, x ∈ head :: (xs ++ y :: ys) := fun x member =>
      mem_cons_of_mem _ (mem_append_right _ member)
    have disjoint : ∀ x ∈ head :: xs, ∀ z ∈ y :: ys, x ≠ z := by
      rw [← cons_append] at nodup
      exact (nodup_append.mp nodup).2.2
    have suffixNodup : (y :: ys).Nodup := by
      rw [← cons_append] at nodup
      exact (nodup_append.mp nodup).2.1
    refine path_append_cons.mpr
      ⟨toNode.1.retarget beforeNodup ?_ ?_ (joined y nextY), toNode.2.2.congr ?_ ?_⟩
    · intro x member
      refine sameNext x ?_
      rw [← cons_append]
      exact mem_append_left _ member
    · intro x member
      refine samePrev x (mem_cons_of_mem _ (mem_append_left _ member)) ?_
      rw [nextY]
      rintro ⟨⟩
      exact disjoint y (mem_cons_of_mem _ member) y mem_cons_self rfl
    · intro x member
      exact sameNext x (inSuffix x member)
        (disjoint _ (lastOf_mem head xs) x member).symm
    · intro x member
      rw [mem_append, mem_singleton] at member
      have notY : links.next node ≠ some x := by
        rw [nextY]
        rintro ⟨⟩
        rcases member with member | isHead
        · exact (nodup_cons.mp suffixNodup).1 member
        · exact disjoint head mem_cons_self y mem_cons_self isHead.symm
      refine samePrev x ?_ notY
      rcases member with member | rfl
      · exact inSuffix x (mem_cons_of_mem _ member)
      · exact mem_cons_self

end Circular
end NodeLinks
end Tnix
