import Mvtx.Lock.NodeInsert

/-!
# Insertion into a search tree

The lock manager calls `insert` from inner nodes of a tree.  The new node ends
up at its place in the order of the whole tree as long as its start lies between
the neighbours of the node that `insert` begins with.
-/

namespace Mvtx.Lock

open Lib.AvlTree Lib.LinkedTree

/-- A heap stores a balanced search tree on the starts of its intervals. -/
structure SearchTree (heap : NodeHeap) (rootPtr : Address) (tree : BinaryTree Address) : Prop
    extends Stores heap rootPtr tree where
  ordered : Ordered (fun address => (heap.pub address).startTs) tree

theorem SearchTree.sorted {heap : NodeHeap} {rootPtr : Address} {tree : BinaryTree Address}
    (stored : SearchTree heap rootPtr tree) :
    (inorder tree).Pairwise fun address other =>
      (heap.pub address).startTs < (heap.pub other).startTs :=
  ordered_iff.1 stored.ordered

section Sorted

variable {α : Type*} {key : α → Nat} {list : List α} {bound : Nat}

/-- A sorted list, split at a bound. -/
theorem exists_split (sorted : list.Pairwise fun element other => key element < key other)
    (bound : Nat) :
    ∃ low high, list = low ++ high ∧ (∀ element ∈ low, key element ≤ bound) ∧
      ∀ element ∈ high, bound < key element := by
  induction list with
  | nil => exact ⟨[], [], rfl, by simp, by simp⟩
  | cons head list ih =>
      obtain ⟨least, sorted⟩ := List.pairwise_cons.1 sorted
      by_cases within : key head ≤ bound
      · obtain ⟨low, high, rfl, below, above⟩ := ih sorted
        exact ⟨head :: low, high, rfl, List.forall_mem_cons.2 ⟨within, below⟩, above⟩
      · refine ⟨[], head :: list, rfl, by simp, List.forall_mem_cons.2 ⟨by omega, ?_⟩⟩
        exact fun element member => (by omega : bound < key head).trans (least element member)

/-- What is below the last element of a sorted list is below all of it. -/
theorem forall_lt_of_getLast? (sorted : list.Pairwise fun element other => key element < key other)
    (last : ∀ element ∈ list.getLast?, key element < bound) :
    ∀ element ∈ list, key element < bound := by
  induction list using List.reverseRecOn with
  | nil => simp
  | append_singleton list element _ =>
      have below : key element < bound := last element (by simp)
      intro other member
      rcases List.mem_append.1 member with inside | isLast
      · exact ((List.pairwise_append.1 sorted).2.2 other inside element (by simp)).trans below
      · rw [List.mem_singleton.1 isLast]
        exact below

theorem forall_gt_of_head? (sorted : list.Pairwise fun element other => key element < key other)
    (first : ∀ element ∈ list.head?, bound < key element) :
    ∀ element ∈ list, bound < key element := by
  cases list with
  | nil => simp
  | cons head list =>
      have above : bound < key head := first head (by simp)
      exact List.forall_mem_cons.2 ⟨above, fun other member =>
        above.trans ((List.pairwise_cons.1 sorted).1 other member)⟩

end Sorted

namespace AVLTreeLockNode

variable {heap : NodeHeap} {this newLock rootPtr : Address} {tree : BinaryTree Address}

/-- Inserting below a node around whose subtree the new node is at its place. -/
theorem insert_subtree {path : Path Address} {subtree : BinaryTree Address}
    (stored : SearchTree heap rootPtr (plug path subtree)) (isSubtree : root subtree = some this)
    (fresh : newLock ∉ inorder (plug path subtree)) (allocated : newLock < heap.size)
    (detached : heap.links newLock = .detached)
    (distinct : ∀ address ∈ inorder (plug path subtree),
      (heap.pub address).startTs ≠ (heap.pub newLock).startTs)
    (below : ∀ address ∈ before path, (heap.pub address).startTs < (heap.pub newLock).startTs)
    (above : ∀ address ∈ after path, (heap.pub newLock).startTs < (heap.pub address).startTs) :
    ∃ links rootPtr' tree' low high,
      insert heap.fuel heap this newLock = .ok ({ heap with links := links }, rootPtr') ∧
        SearchTree { heap with links := links } rootPtr' tree' ∧
        inorder (plug path subtree) = low ++ high ∧
        inorder tree' = low ++ newLock :: high := by
  have sorted := stored.sorted
  rw [inorder_plug] at sorted distinct
  obtain ⟨first, second, split, low, high⟩ :=
    exists_split (List.pairwise_append.1 (List.pairwise_append.1 sorted).1).2.1
      (heap.pub newLock).startTs
  have enough : subtree.height ≤ heap.fuel := by
    have short := length_le_of_nodup_of_lt stored.nodup stored.allocated
    have bound := height_le_length_inorder subtree
    rw [inorder_plug] at short
    simp only [List.length_append] at short
    unfold NodeHeap.fuel
    omega
  obtain ⟨links, rootPtr', tree', inserted, stored', order⟩ :=
    insert_eq isSubtree stored.toStores fresh allocated detached split low high enough
  refine ⟨links, rootPtr', tree', before path ++ first, second ++ after path, inserted,
    ⟨stored', ordered_iff.2 ?_⟩, ?_, order⟩
  · rw [split] at sorted distinct
    rw [order]
    have whole : (before path ++ first ++ (second ++ after path)).Pairwise fun address other =>
        (heap.pub address).startTs < (heap.pub other).startTs := by
      simpa only [List.append_assoc] using sorted
    obtain ⟨left, right, across⟩ := List.pairwise_append.1 whole
    refine List.pairwise_append.2 ⟨left, List.pairwise_cons.2 ⟨fun address member => ?_, right⟩,
      fun address isLeft other isRight => ?_⟩
    · rcases List.mem_append.1 member with inside | outside
      · exact high address inside
      · exact above address outside
    · rcases List.mem_cons.1 isRight with rfl | isRight
      · rcases List.mem_append.1 isLeft with outside | inside
        · exact below address outside
        · exact lt_of_le_of_ne (low address inside) (distinct address (by simp [inside]))
      · exact across address isLeft other isRight
  · rw [inorder_plug, split]
    simp only [List.append_assoc]

/--
`insert` from any node of a search tree, where the start of the new node occurs
nowhere in the tree: if the node is the root, or the start lies between those of
the neighbours of the node in order, the result is the root of a balanced search
tree, whose sequence is the old one with the new node added.  All intervals,
statuses and holders stay, and no error is printed.
-/
theorem insert_searchTree {first second : List Address}
    (stored : SearchTree heap rootPtr tree) (place : inorder tree = first ++ this :: second)
    (fresh : newLock ∉ inorder tree) (allocated : newLock < heap.size)
    (detached : heap.links newLock = .detached)
    (distinct : ∀ address ∈ inorder tree,
      (heap.pub address).startTs ≠ (heap.pub newLock).startTs)
    (near : this = rootPtr ∨
      (∀ previous ∈ first.getLast?,
          (heap.pub previous).startTs < (heap.pub newLock).startTs) ∧
        ∀ next ∈ second.head?, (heap.pub newLock).startTs < (heap.pub next).startTs) :
    ∃ links rootPtr' tree' low high,
      insert heap.fuel heap this newLock = .ok ({ heap with links := links }, rootPtr') ∧
        SearchTree { heap with links := links } rootPtr' tree' ∧
        inorder tree = low ++ high ∧ inorder tree' = low ++ newLock :: high := by
  rcases near with rfl | ⟨previous, next⟩
  · exact insert_subtree (show SearchTree heap this (plug [] tree) from stored) stored.isRoot
      fresh allocated detached distinct (by simp [before]) (by simp [after])
  · have sorted := stored.sorted
    rw [place] at sorted
    obtain ⟨firstSorted, rest, -⟩ := List.pairwise_append.1 sorted
    have below := forall_lt_of_getLast? firstSorted previous
    have above := forall_gt_of_head? (List.pairwise_cons.1 rest).2 next
    obtain ⟨path, left, right, rfl, rfl, rfl⟩ := exists_path_of_split stored.nodup place
    exact insert_subtree stored rfl fresh allocated detached distinct
      (fun address member => below address (by simp [member]))
      (fun address member => above address (by simp [member]))

/-- A node that starts at `10` with one at `20` below it, and one at `15` in no tree. -/
def pair : NodeHeap where
  pub := fun address =>
    { status := .free, startTs := [10, 20, 15].getD address 0, endTs := 0, tids := ∅ }
  links
    | 0 => { leftHeight := 0, rightHeight := 1, parent := none, left := none, right := some 1 }
    | 1 => { leftHeight := 0, rightHeight := 0, parent := some 0, left := none, right := none }
    | _ => .detached
  size := 3
  errors := []

theorem searchTree_pair : SearchTree pair 0 (.node 0 .nil (.node 1 .nil .nil)) where
  sound := ⟨rfl, trivial, rfl, trivial, trivial⟩
  isRoot := rfl
  balanced := by simp [Lib.AvlTree.Balanced]
  nodup := by decide
  allocated := by decide
  ordered := ordered_iff.2 (by decide)

/-- The node at `15` is inserted below the one at `20`, which takes a double rotation. -/
theorem insert_searchTree_of_pair :
    ∃ links rootPtr tree low high,
      insert pair.fuel pair 1 2 = .ok ({ pair with links := links }, rootPtr) ∧
        SearchTree { pair with links := links } rootPtr tree ∧
        [0, 1] = low ++ high ∧ inorder tree = low ++ 2 :: high :=
  insert_searchTree searchTree_pair
    (show inorder (.node 0 .nil (.node 1 .nil .nil)) = [0] ++ 1 :: [] from rfl) (by decide)
    (by decide) rfl (by decide) (.inr ⟨by decide, by decide⟩)

end AVLTreeLockNode

end Mvtx.Lock
