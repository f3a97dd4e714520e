import Tnix.Foundation.CircularList

/-! # `list.c`

The operations on embedded list nodes, with `none` where a null pointer would be followed. -/

namespace Tnix.Util

open Function
variable {Node : Type} [DecidableEq Node]

def setNext (links : NodeLinks Node) (node : Node) (value : Option Node) : NodeLinks Node :=
  { links with next := update links.next node value }

def setPrev (links : NodeLinks Node) (node : Node) (value : Option Node) : NodeLinks Node :=
  { links with prev := update links.prev node value }

def listInit (links : NodeLinks Node) (head : Node) : NodeLinks Node :=
  setNext (setPrev links head (some head)) head (some head)

def listPushback (links : NodeLinks Node) (head node : Node) : Option (NodeLinks Node) := do
  let links := setNext links node (some head)
  let links := setPrev links node (links.prev head)
  let last ← links.prev head
  let links := setNext links last (some node)
  some (setPrev links head (some node))

def listPushfront (links : NodeLinks Node) (head node : Node) : Option (NodeLinks Node) := do
  let links := setPrev links node (some head)
  let links := setNext links node (links.next head)
  let first ← links.next head
  let links := setPrev links first (some node)
  some (setNext links head (some node))

def listRemove (links : NodeLinks Node) (node : Node) : Option (NodeLinks Node) := do
  let before ← links.prev node
  let links := setNext links before (links.next node)
  let behind ← links.next node
  let links := setPrev links behind (links.prev node)
  let links := setNext links node none
  some (setPrev links node none)

/-! ## Lists -/

def SameAt (links after : NodeLinks Node) (x : Node) : Prop :=
  after.next x = links.next x ∧ after.prev x = links.prev x

variable {links : NodeLinks Node} {head node : Node} {nodes before behind : List Node}

theorem listInit_circular (links : NodeLinks Node) (head : Node) :
    (listInit links head).Circular head [] ∧
      ∀ x, x ≠ head → SameAt links (listInit links head) x := by
  refine ⟨⟨List.nodup_singleton head, ?_, ?_⟩, ?_⟩
  · exact update_self _ _ _
  · exact update_self _ _ _
  · intro x different
    exact ⟨update_of_ne different _ _, update_of_ne different _ _⟩

theorem listPushback_circular (circular : links.Circular head nodes) (new : node ∉ head :: nodes) :
    ∃ after, listPushback links head node = some after ∧
      after.Circular head (nodes ++ [node]) ∧
      ∀ x, x ∉ node :: head :: nodes → SameAt links after x := by
  generalize isLast : NodeLinks.lastOf head nodes = last
  have closing := circular.path.adjacent_last
  have lastMem := NodeLinks.lastOf_mem head nodes
  rw [isLast] at closing lastMem
  have notHead : node ≠ head := fun same => new (same ▸ List.mem_cons_self)
  have notLast : node ≠ last := fun same => new (same ▸ lastMem)
  have notNode : ∀ x ∈ head :: nodes, x ≠ node := fun x member same => new (same ▸ member)
  refine ⟨⟨update (update links.next node (some head)) last (some node),
    update (update links.prev node (some last)) head (some node)⟩,
    ?_, circular.push new ?_ ?_ ?_ ?_, ?_⟩
  · simp only [listPushback, setNext, setPrev, closing.2, update_of_ne notHead.symm]
    rfl
  · intro x member notLast
    rw [isLast] at notLast
    exact (update_of_ne notLast _ _).trans (update_of_ne (notNode x member) _ _)
  · intro x member
    have notHead : x ≠ head := by
      rintro rfl
      exact (List.nodup_cons.mp circular.nodup).1 member
    exact (update_of_ne notHead _ _).trans
      (update_of_ne (notNode x (List.mem_cons_of_mem _ member)) _ _)
  · rw [isLast]
    exact ⟨update_self _ _ _, (update_of_ne notHead _ _).trans (update_self _ _ _)⟩
  · exact ⟨(update_of_ne notLast _ _).trans (update_self _ _ _), update_self _ _ _⟩
  · intro x other
    rw [List.mem_cons, not_or] at other
    have otherLast : x ≠ last := fun same => other.2 (same ▸ lastMem)
    have otherHead : x ≠ head := fun same => other.2 (same ▸ List.mem_cons_self)
    exact ⟨(update_of_ne otherLast _ _).trans (update_of_ne other.1 _ _),
      (update_of_ne otherHead _ _).trans (update_of_ne other.1 _ _)⟩

theorem listRemove_circular (circular : links.Circular head (before ++ node :: behind)) :
    ∃ after, listRemove links node = some after ∧ after.Circular head (before ++ behind) ∧
      ∀ x, x ∉ head :: (before ++ node :: behind) → SameAt links after x := by
  generalize isLast : NodeLinks.lastOf head before = last
  have paths := NodeLinks.path_append_cons.mp circular.path
  have toNode := paths.1.adjacent_last
  have lastMem := NodeLinks.lastOf_mem head before
  rw [isLast] at toNode lastMem
  have split : ∃ first, links.Adjacent node first ∧ first ∈ head :: behind := by
    cases behind with
    | nil => exact ⟨head, paths.2, List.mem_cons_self⟩
    | cons first rest =>
      exact ⟨first, paths.2.1, List.mem_cons_of_mem _ List.mem_cons_self⟩
  rcases split with ⟨first, fromNode, firstMem⟩
  have permuted : (head :: (before ++ node :: behind)).Perm (node :: head :: (before ++ behind)) :=
    (List.perm_middle.cons head).trans (List.Perm.swap _ _ _)
  have nodeNotMem := (List.nodup_cons.mp (permuted.nodup_iff.mp circular.nodup)).1
  have lastIn : last ∈ head :: (before ++ behind) := by
    rw [← List.cons_append]
    exact List.mem_append_left _ lastMem
  have firstIn : first ∈ head :: (before ++ behind) := by
    rcases List.mem_cons.mp firstMem with rfl | member
    · exact List.mem_cons_self
    · exact List.mem_cons_of_mem _ (List.mem_append_right _ member)
  have notNode : ∀ x ∈ head :: (before ++ behind), x ≠ node :=
    fun x member same => nodeNotMem (same ▸ member)
  have lastNotNode := notNode last lastIn
  have firstNotNode := notNode first firstIn
  refine ⟨⟨update (update links.next last (some first)) node none,
    update (update links.prev first (some last)) node none⟩,
    ?_, circular.unlink ?_ ?_ ?_, ?_⟩
  · simp only [listRemove, setNext, setPrev, toNode.2, Option.bind_eq_bind, Option.bind_some,
      update_of_ne lastNotNode.symm, fromNode.1]
  · intro x member notLast
    rw [isLast] at notLast
    exact (update_of_ne (notNode x member) _ _).trans (update_of_ne notLast _ _)
  · intro x member notFirst
    have different : x ≠ first := by
      rintro rfl
      exact notFirst fromNode.1
    exact (update_of_ne (notNode x member) _ _).trans
      (update_of_ne different _ _)
  · intro x isFirst
    cases fromNode.1.symm.trans isFirst
    rw [isLast]
    exact ⟨(update_of_ne lastNotNode _ _).trans (update_self _ _ _),
      (update_of_ne firstNotNode _ _).trans (update_self _ _ _)⟩
  · intro x other
    rw [permuted.mem_iff, List.mem_cons, not_or] at other
    have notLast : x ≠ last := fun same => other.2 (same ▸ lastIn)
    have notFirst : x ≠ first := fun same => other.2 (same ▸ firstIn)
    exact ⟨(update_of_ne other.1 _ _).trans (update_of_ne notLast _ _),
      (update_of_ne other.1 _ _).trans (update_of_ne notFirst _ _)⟩

end Tnix.Util
