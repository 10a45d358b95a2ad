import Mathlib.Data.List.Basic
import Mathlib.Data.Tree.Basic
import Mathlib.Tactic.Common
import Mathlib.Order.Lattice

/-!
# Height-balanced binary trees

Shapes are Mathlib's `BinaryTree`.  This module adds the in-order sequence,
the height balance of AVL trees, paths from a subtree up to the root, and the
rotations which restore the balance along such a path.

Nothing here mentions memory: `LinkedTree` says when a map of links stores a
shape, and the programs which rotate in place are compared with `climb`.
-/

namespace Mvtx.Lib.AvlTree

variable {α : Type*}

/-- The labels of a tree from left to right. -/
def inorder : BinaryTree α → List α
  | .nil => []
  | .node label left right => inorder left ++ label :: inorder right

@[simp]
theorem inorder_nil : inorder (.nil : BinaryTree α) = [] := rfl

@[simp]
theorem inorder_node (label : α) (left right : BinaryTree α) :
    inorder (.node label left right) =
      inorder left ++ label :: inorder right := rfl

theorem height_le_length_inorder (tree : BinaryTree α) :
    tree.height ≤ (inorder tree).length := by
  induction tree with
  | nil => simp
  | node label left right leftIH rightIH =>
      simp only [BinaryTree.height, inorder_node, List.length_append,
        List.length_cons]
      omega

/-- The height balance of AVL trees. -/
def Balanced : BinaryTree α → Prop
  | .nil => True
  | .node _ left right =>
      left.height ≤ right.height + 1 ∧ right.height ≤ left.height + 1 ∧
        Balanced left ∧ Balanced right

/-- A node whose subtrees are named by their side. -/
def nodeOn (isLeft : Bool) (label : α) (near far : BinaryTree α) : BinaryTree α :=
  if isLeft then .node label near far else .node label far near

theorem nodeOn_not (isLeft : Bool) (label : α) (near far : BinaryTree α) :
    nodeOn (!isLeft) label near far = nodeOn isLeft label far near := by
  cases isLeft <;> rfl

theorem mem_inorder_nodeOn {isLeft : Bool} {label other : α}
    {near far : BinaryTree α} :
    other ∈ inorder (nodeOn isLeft label near far) ↔
      other = label ∨ other ∈ inorder near ∨ other ∈ inorder far := by
  cases isLeft <;>
    simp only [nodeOn, if_true, Bool.false_eq_true, if_false, inorder_node,
      List.mem_append, List.mem_cons] <;>
    tauto

theorem nodup_inorder_nodeOn {isLeft : Bool} {label : α}
    {near far : BinaryTree α} :
    (inorder (nodeOn isLeft label near far)).Nodup ↔
      label ∉ inorder near ∧ label ∉ inorder far ∧ (inorder near).Nodup ∧
        (inorder far).Nodup ∧
        ∀ other, other ∈ inorder near → other ∉ inorder far := by
  cases isLeft <;>
    simp only [nodeOn, if_true, Bool.false_eq_true, if_false, inorder_node,
      List.nodup_append, List.nodup_cons, List.mem_cons] <;>
    grind

theorem height_nodeOn (isLeft : Bool) (label : α) (near far : BinaryTree α) :
    (nodeOn isLeft label near far).height = max near.height far.height + 1 := by
  cases isLeft with
  | true => rfl
  | false => simp [nodeOn, max_comm]

theorem balanced_nodeOn_iff {isLeft : Bool} {label : α}
    {near far : BinaryTree α} :
    Balanced (nodeOn isLeft label near far) ↔
      near.height ≤ far.height + 1 ∧ far.height ≤ near.height + 1 ∧
        Balanced near ∧ Balanced far := by
  cases isLeft
  · simp only [nodeOn, Bool.false_eq_true, if_false, Balanced]
    tauto
  · simp only [nodeOn, if_true, Balanced]

/-- A search tree: the keys on the left are smaller and those on the right larger. -/
def Ordered (key : α → Nat) : BinaryTree α → Prop
  | .nil => True
  | .node label left right =>
      (∀ other ∈ inorder left, key other < key label) ∧
        (∀ other ∈ inorder right, key label < key other) ∧
        Ordered key left ∧ Ordered key right

theorem ordered_iff {key : α → Nat} {tree : BinaryTree α} :
    Ordered key tree ↔ (inorder tree).Pairwise fun label other => key label < key other := by
  induction tree with
  | nil => simp [Ordered]
  | node label left right leftIH rightIH =>
      simp only [Ordered, inorder_node, List.pairwise_append, List.pairwise_cons,
        leftIH, rightIH, List.mem_cons]
      constructor
      · rintro ⟨below, above, leftSorted, rightSorted⟩
        refine ⟨leftSorted, ⟨above, rightSorted⟩, fun first isLeft second isRight => ?_⟩
        rcases isRight with rfl | isRight
        · exact below first isLeft
        · exact Nat.lt_trans (below first isLeft) (above second isRight)
      · rintro ⟨leftSorted, ⟨above, rightSorted⟩, across⟩
        exact ⟨fun other isLeft => across other isLeft label (.inl rfl), above,
          leftSorted, rightSorted⟩

/-! ## Paths -/

/--
One step of a path: a node, the side on which the path enters it, and its
child on the other side.
-/
structure Frame (α : Type*) where
  isLeft : Bool
  label : α
  sibling : BinaryTree α

/-- Put a subtree back below the node of a frame. -/
def Frame.fill (frame : Frame α) (tree : BinaryTree α) : BinaryTree α :=
  nodeOn frame.isLeft frame.label tree frame.sibling

/-- A path from a subtree up to the root, innermost node first. -/
abbrev Path (α : Type*) := List (Frame α)

/-- Put a subtree back at the end of a path. -/
def plug : Path α → BinaryTree α → BinaryTree α
  | [], tree => tree
  | frame :: path, tree => plug path (frame.fill tree)

/-- The labels of a path that lie left of the subtree at its end. -/
def before : Path α → List α
  | [] => []
  | ⟨true, _, _⟩ :: path => before path
  | ⟨false, label, left⟩ :: path => before path ++ (inorder left ++ [label])

/-- The labels of a path that lie right of the subtree at its end. -/
def after : Path α → List α
  | [] => []
  | ⟨true, label, right⟩ :: path => label :: inorder right ++ after path
  | ⟨false, _, _⟩ :: path => after path

theorem before_append_fill_append_after
    (frame : Frame α) (path : Path α) (tree : BinaryTree α) :
    before path ++ inorder (frame.fill tree) ++ after path =
      before (frame :: path) ++ inorder tree ++ after (frame :: path) := by
  obtain ⟨_ | _, label, sibling⟩ := frame <;>
    simp [before, after, Frame.fill, nodeOn]

theorem inorder_plug (path : Path α) (tree : BinaryTree α) :
    inorder (plug path tree) = before path ++ inorder tree ++ after path := by
  induction path generalizing tree with
  | nil => simp [plug, before, after]
  | cons frame path ih =>
      rw [plug, ih, before_append_fill_append_after]

/-- The labels of a path and of the children off it. -/
def labels (path : Path α) : List α := before path ++ after path

@[simp] theorem labels_nil : labels ([] : Path α) = [] := rfl

theorem mem_labels_cons {frame : Frame α} {path : Path α} {label : α} :
    label ∈ labels (frame :: path) ↔
      label = frame.label ∨ label ∈ inorder frame.sibling ∨
        label ∈ labels path := by
  obtain ⟨_ | _, node, sibling⟩ := frame <;>
    simp only [labels, before, after, List.mem_append, List.mem_cons,
      List.not_mem_nil, or_false] <;>
    tauto

theorem nodup_labels_cons {frame : Frame α} {path : Path α}
    (nodup : (labels (frame :: path)).Nodup) :
    frame.label ∉ inorder frame.sibling ∧ frame.label ∉ labels path := by
  obtain ⟨_ | _, node, sibling⟩ := frame <;>
    simp only [labels, before, after, List.nodup_append, List.nodup_cons,
      List.mem_append, List.mem_cons] at nodup ⊢ <;>
    grind

theorem mem_inorder_plug {path : Path α} {tree : BinaryTree α} {label : α} :
    label ∈ inorder (plug path tree) ↔ label ∈ labels path ∨ label ∈ inorder tree := by
  simp only [inorder_plug, labels, List.mem_append]
  tauto

theorem nodup_inorder_plug_iff {path : Path α} {tree : BinaryTree α} :
    (inorder (plug path tree)).Nodup ↔
      (labels path).Nodup ∧ (inorder tree).Nodup ∧
        ∀ label ∈ labels path, label ∉ inorder tree := by
  have permuted : (inorder (plug path tree)).Perm
      (labels path ++ inorder tree) := by
    rw [inorder_plug, labels, List.append_assoc, List.append_assoc]
    exact List.perm_append_comm.append_left _
  rw [permuted.nodup_iff, List.nodup_append]
  grind

theorem length_le_length_labels (path : Path α) :
    path.length ≤ (labels path).length := by
  induction path with
  | nil => simp
  | cons frame path ih =>
      simp only [labels, List.length_append] at ih ⊢
      obtain ⟨_ | _, label, sibling⟩ := frame <;>
        simp only [before, after, List.length_cons, List.length_append] <;>
        omega

/-- Every label of a tree is the root of a subtree. -/
theorem exists_path {tree : BinaryTree α} {label : α}
    (member : label ∈ inorder tree) :
    ∃ path left right, tree = plug path (.node label left right) := by
  suffices descend : ∀ (tree : BinaryTree α) (path : Path α),
      label ∈ inorder tree →
      ∃ path' left right, plug path tree = plug path' (.node label left right) from
    descend tree [] member
  intro tree
  induction tree with
  | nil => simp
  | node root left right leftIH rightIH =>
      intro path member
      simp only [inorder_node, List.mem_append, List.mem_cons] at member
      rcases member with inLeft | rfl | inRight
      · exact leftIH (⟨true, root, right⟩ :: path) inLeft
      · exact ⟨path, left, right, rfl⟩
      · exact rightIH (⟨false, root, left⟩ :: path) inRight

/-- The path to a node is what comes before and after it. -/
theorem exists_path_of_split {tree : BinaryTree α} {label : α}
    {first second : List α}
    (nodup : (inorder tree).Nodup)
    (split : inorder tree = first ++ label :: second) :
    ∃ path left right,
      tree = plug path (.node label left right) ∧
        first = before path ++ inorder left ∧
        second = inorder right ++ after path := by
  obtain ⟨path, left, right, rfl⟩ := exists_path
    (show label ∈ inorder tree by simp [split])
  have order : (before path ++ inorder left) ++ label :: (inorder right ++ after path) =
      first ++ label :: second := by
    rw [← split, inorder_plug]
    simp
  rw [split, List.perm_middle.nodup_iff, List.nodup_cons] at nodup
  obtain ⟨fresh, -⟩ := nodup
  simp only [List.mem_append, not_or] at fresh
  have same : first = before path ++ inorder left ∧ label = label ∧
      second = inorder right ++ after path := by
    refine (List.append_cons_inj_of_notMem ?_ ?_).1 order.symm
    · exact fresh.1
    · exact fresh.2
  exact ⟨path, left, right, rfl, same.1, same.2.2⟩

/-! ## Rotations -/

/-- Lift the left child above its parent. -/
def rotateRight : BinaryTree α → BinaryTree α
  | .node label (.node child outer inner) right =>
      .node child outer (.node label inner right)
  | tree => tree

/-- Lift the right child above its parent. -/
def rotateLeft : BinaryTree α → BinaryTree α
  | .node label left (.node child inner outer) =>
      .node child (.node label left inner) outer
  | tree => tree

/-- Whether the left child of a tree is higher than its right child. -/
def leansLeft : BinaryTree α → Bool
  | .nil => false
  | .node _ left right => right.height < left.height

/-- Whether the right child of a tree is higher than its left child. -/
def leansRight : BinaryTree α → Bool
  | .nil => false
  | .node _ left right => left.height < right.height

/--
Restore the balance of a node whose children differ by two in height: a
single rotation, after a rotation of the higher child when that child leans
to the inside.
-/
def rebalance : BinaryTree α → BinaryTree α
  | .nil => .nil
  | .node label left right =>
      if right.height + 1 < left.height then
        rotateRight
          (.node label (if leansRight left then rotateLeft left else left) right)
      else if left.height + 1 < right.height then
        rotateLeft
          (.node label left (if leansLeft right then rotateRight right else right))
      else .node label left right

@[simp]
theorem inorder_rotateRight (tree : BinaryTree α) :
    inorder (rotateRight tree) = inorder tree := by
  rcases tree with _ | ⟨label, _ | ⟨child, outer, inner⟩, right⟩ <;>
    simp [rotateRight]

@[simp]
theorem inorder_rotateLeft (tree : BinaryTree α) :
    inorder (rotateLeft tree) = inorder tree := by
  rcases tree with _ | ⟨label, left, _ | ⟨child, inner, outer⟩⟩ <;>
    simp [rotateLeft]

@[simp]
theorem inorder_rebalance (tree : BinaryTree α) :
    inorder (rebalance tree) = inorder tree := by
  rcases tree with _ | ⟨label, left, right⟩
  · rfl
  · simp only [rebalance]
    split_ifs <;> simp

theorem rebalance_level
    {label : α} {left right : BinaryTree α}
    (leftClose : left.height ≤ right.height + 1)
    (rightClose : right.height ≤ left.height + 1) :
    rebalance (.node label left right) = .node label left right := by
  rw [rebalance, if_neg (by omega), if_neg (by omega)]

/-- Rebalancing by a double rotation. -/
theorem rebalance_inner
    {isLeft : Bool} {label child grandchild : α}
    {outer first second far : BinaryTree α}
    (high : far.height + 1 <
      (nodeOn isLeft child outer (nodeOn (!isLeft) grandchild second first)).height)
    (leans : outer.height < (nodeOn (!isLeft) grandchild second first).height) :
    rebalance
        (nodeOn isLeft label
          (nodeOn isLeft child outer (nodeOn (!isLeft) grandchild second first))
          far) =
      nodeOn isLeft grandchild (nodeOn isLeft child outer first)
        (nodeOn isLeft label second far) := by
  cases isLeft with
  | true =>
      simp only [nodeOn, Bool.not_true, if_true, Bool.false_eq_true,
        if_false] at high leans ⊢
      simp only [rebalance, if_pos high, leansRight, leans, decide_true, if_true,
        rotateLeft, rotateRight]
  | false =>
      simp only [nodeOn, Bool.not_false, if_true, Bool.false_eq_true,
        if_false] at high leans ⊢
      simp only [rebalance, if_pos high, leansLeft, leans, decide_true, if_true,
        rotateLeft, rotateRight]
      rw [if_neg (by omega)]

/-- Rebalancing by a single rotation. -/
theorem rebalance_outer
    {isLeft : Bool} {label child : α} {outer between far : BinaryTree α}
    (high : far.height + 1 < (nodeOn isLeft child outer between).height)
    (leans : between.height ≤ outer.height) :
    rebalance (nodeOn isLeft label (nodeOn isLeft child outer between) far) =
      nodeOn isLeft child outer (nodeOn isLeft label between far) := by
  have notInward : ¬ outer.height < between.height := by omega
  cases isLeft with
  | true =>
      simp only [nodeOn, if_true] at high ⊢
      simp only [rebalance, if_pos high, leansRight, notInward, decide_false,
        Bool.false_eq_true, if_false, rotateRight]
  | false =>
      simp only [nodeOn, Bool.false_eq_true, if_false] at high ⊢
      simp only [rebalance, if_pos high, leansLeft, notInward, decide_false,
        Bool.false_eq_true, if_false, rotateLeft]
      rw [if_neg (by omega)]

/--
Rebalancing a node whose balanced children differ by at most two in height
gives a balanced tree, whose height is that of the node or one less.
-/
theorem balanced_rebalance
    (label : α) {left right : BinaryTree α}
    (leftBalanced : Balanced left) (rightBalanced : Balanced right)
    (leftClose : left.height ≤ right.height + 2)
    (rightClose : right.height ≤ left.height + 2) :
    Balanced (rebalance (.node label left right)) ∧
      max left.height right.height ≤
        (rebalance (.node label left right)).height ∧
      (rebalance (.node label left right)).height ≤
        max left.height right.height + 1 ∧
      (left.height ≤ right.height + 1 → right.height ≤ left.height + 1 →
        (rebalance (.node label left right)).height =
          max left.height right.height + 1) := by
  simp only [rebalance]
  split_ifs with leftHigh inner rightHigh inner
  · rcases left with _ | ⟨child, outer, _ | ⟨grand, first, second⟩⟩
    · simp at leftHigh
    · simp [leansRight] at inner
    · simp only [leansRight, BinaryTree.height] at inner
      simp only [Balanced, BinaryTree.height] at *
      simp only [rotateLeft, rotateRight, Balanced, BinaryTree.height]
      grind
  · rcases left with _ | ⟨child, outer, grand⟩
    · simp at leftHigh
    · simp only [leansRight, decide_eq_true_eq] at inner
      simp only [Balanced, BinaryTree.height] at *
      simp only [rotateRight, Balanced, BinaryTree.height]
      grind
  · rcases right with _ | ⟨child, _ | ⟨grand, first, second⟩, outer⟩
    · simp at rightHigh
    · simp [leansLeft] at inner
    · simp only [leansLeft, BinaryTree.height] at inner
      simp only [Balanced, BinaryTree.height] at *
      simp only [rotateLeft, rotateRight, Balanced, BinaryTree.height]
      grind
  · rcases right with _ | ⟨child, grand, outer⟩
    · simp at rightHigh
    · simp only [leansLeft, decide_eq_true_eq] at inner
      simp only [Balanced, BinaryTree.height] at *
      simp only [rotateLeft, Balanced, BinaryTree.height]
      grind
  · simp only [Balanced, BinaryTree.height]
    grind

theorem balanced_rebalance_nodeOn
    (isLeft : Bool) (label : α) {near far : BinaryTree α}
    (nearBalanced : Balanced near) (farBalanced : Balanced far)
    (nearClose : near.height ≤ far.height + 2)
    (farClose : far.height ≤ near.height + 2) :
    Balanced (rebalance (nodeOn isLeft label near far)) ∧
      max near.height far.height ≤
        (rebalance (nodeOn isLeft label near far)).height ∧
      (rebalance (nodeOn isLeft label near far)).height ≤
        max near.height far.height + 1 ∧
      (near.height ≤ far.height + 1 → far.height ≤ near.height + 1 →
        (rebalance (nodeOn isLeft label near far)).height =
          max near.height far.height + 1) := by
  cases isLeft with
  | true => exact balanced_rebalance label nearBalanced farBalanced nearClose farClose
  | false =>
      have step := balanced_rebalance label farBalanced nearBalanced
        farClose nearClose
      rw [max_comm] at step
      exact ⟨step.1, step.2.1, step.2.2.1,
        fun nearSlope farSlope => step.2.2.2 farSlope nearSlope⟩

/-! ## Rebalancing along a path -/

/-- Rebalance every node of a path, from the inside out. -/
def climb : Path α → BinaryTree α → BinaryTree α
  | [], tree => tree
  | frame :: path, tree => climb path (rebalance (frame.fill tree))

theorem inorder_climb (path : Path α) (tree : BinaryTree α) :
    inorder (climb path tree) = before path ++ inorder tree ++ after path := by
  induction path generalizing tree with
  | nil => simp [climb, before, after]
  | cons frame path ih =>
      rw [climb, ih, inorder_rebalance, before_append_fill_append_after]

/-- The nodes of a path are balanced for a subtree of a given height. -/
def BalancedPath : Path α → Nat → Prop
  | [], _ => True
  | frame :: path, height =>
      height ≤ frame.sibling.height + 1 ∧ frame.sibling.height ≤ height + 1 ∧
        Balanced frame.sibling ∧
        BalancedPath path (max height frame.sibling.height + 1)

theorem balanced_plug_iff (path : Path α) (tree : BinaryTree α) :
    Balanced (plug path tree) ↔
      Balanced tree ∧ BalancedPath path tree.height := by
  induction path generalizing tree with
  | nil => simp [plug, BalancedPath]
  | cons frame path ih =>
      simp only [plug, Frame.fill, ih, balanced_nodeOn_iff, height_nodeOn,
        BalancedPath]
      tauto

/--
Rebalancing one node of a path above a subtree whose height has changed by at
most one changes the height at the node by at most one.
-/
theorem rebalance_fill
    (frame : Frame α) (height : Nat) {tree : BinaryTree α}
    (balanced : Balanced tree) (siblingBalanced : Balanced frame.sibling)
    (above : height ≤ frame.sibling.height + 1)
    (below : frame.sibling.height ≤ height + 1)
    (grown : tree.height ≤ height + 1) (shrunk : height ≤ tree.height + 1) :
    Balanced (rebalance (frame.fill tree)) ∧
      (rebalance (frame.fill tree)).height ≤
        max height frame.sibling.height + 1 + 1 ∧
      max height frame.sibling.height + 1 ≤
        (rebalance (frame.fill tree)).height + 1 := by
  have step := balanced_rebalance_nodeOn frame.isLeft frame.label balanced
    siblingBalanced (by omega) (by omega)
  rw [Frame.fill]
  exact ⟨step.1, by omega, by omega⟩

/--
A path which is balanced for a subtree can be climbed with any balanced
subtree whose height differs from that subtree's by at most one.
-/
theorem balanced_climb
    {path : Path α} {tree : BinaryTree α} {height : Nat}
    (balanced : Balanced tree) (pathBalanced : BalancedPath path height)
    (grown : tree.height ≤ height + 1) (shrunk : height ≤ tree.height + 1) :
    Balanced (climb path tree) := by
  induction path generalizing tree height with
  | nil => exact balanced
  | cons frame path ih =>
      obtain ⟨above, below, siblingBalanced, rest⟩ := pathBalanced
      obtain ⟨stepBalanced, stepGrown, stepShrunk⟩ :=
        rebalance_fill frame height balanced siblingBalanced above below grown shrunk
      exact ih stepBalanced rest stepGrown stepShrunk

end Mvtx.Lib.AvlTree
