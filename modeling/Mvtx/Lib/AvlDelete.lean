import Mvtx.Lib.AvlTree
import Mathlib.Data.List.Induction

/-!
# Deleting the last node of a tree

The node before an inner node in order is the last node of its left subtree.
It ends a path of right turns, and has no right child, so it is deleted by
putting its left child in its place and rebalancing the path.
-/

namespace Mvtx.Lib.AvlTree

variable {α β : Type*}

/-! ## Composed paths, renamed trees -/

theorem plug_append (inner outer : Path α) (tree : BinaryTree α) :
    plug (inner ++ outer) tree = plug outer (plug inner tree) := by
  induction inner generalizing tree with
  | nil => rfl
  | cons frame inner ih => exact ih (frame.fill tree)

theorem climb_append (inner outer : Path α) (tree : BinaryTree α) :
    climb (inner ++ outer) tree = climb outer (climb inner tree) := by
  induction inner generalizing tree with
  | nil => rfl
  | cons frame inner ih => exact ih (rebalance (frame.fill tree))

theorem before_append (inner outer : Path α) :
    before (inner ++ outer) = before outer ++ before inner := by
  induction inner with
  | nil => simp [before]
  | cons frame inner ih =>
      obtain ⟨_ | _, label, sibling⟩ := frame <;> simp [before, ih]

theorem after_append (inner outer : Path α) :
    after (inner ++ outer) = after inner ++ after outer := by
  induction inner with
  | nil => simp [after]
  | cons frame inner ih =>
      obtain ⟨_ | _, label, sibling⟩ := frame <;> simp [after, ih]

theorem inorder_map (rename : α → β) (tree : BinaryTree α) :
    inorder (tree.map rename) = (inorder tree).map rename := by
  induction tree with
  | nil => rfl
  | node label left right leftIH rightIH => simp [BinaryTree.map, leftIH, rightIH]

theorem height_map (rename : α → β) (tree : BinaryTree α) :
    (tree.map rename).height = tree.height := by
  induction tree with
  | nil => rfl
  | node label left right leftIH rightIH => simp [BinaryTree.map, leftIH, rightIH]

theorem balanced_map {rename : α → β} {tree : BinaryTree α} (balanced : Balanced tree) :
    Balanced (tree.map rename) := by
  induction tree with
  | nil => trivial
  | node label left right leftIH rightIH =>
      obtain ⟨leftLow, rightLow, leftBalanced, rightBalanced⟩ := balanced
      refine ⟨?_, ?_, leftIH leftBalanced, rightIH rightBalanced⟩
      · simpa only [height_map] using leftLow
      · simpa only [height_map] using rightLow

/-! ## The last node -/

/-- A path that always turns right. -/
def TurnsRight (path : Path α) : Prop := ∀ frame ∈ path, frame.isLeft = false

theorem TurnsRight.after_eq {path : Path α} (turns : TurnsRight path) : after path = [] := by
  induction path with
  | nil => rfl
  | cons frame path ih =>
      obtain ⟨isLeft, label, sibling⟩ := frame
      obtain rfl : isLeft = false := turns ⟨isLeft, label, sibling⟩ (by simp)
      exact ih fun other member => turns other (by simp [member])

/-- A tree ends with a node that has no right child. -/
theorem exists_last (label : α) (left right : BinaryTree α) :
    ∃ spine last below, TurnsRight spine ∧
      BinaryTree.node label left right = plug spine (.node last below .nil) := by
  induction right generalizing label left with
  | nil => exact ⟨[], label, left, by simp [TurnsRight], rfl⟩
  | node child between outer _ outerIH =>
      obtain ⟨spine, last, below, turns, whole⟩ := outerIH child between
      refine ⟨spine ++ [⟨false, label, left⟩], last, below, ?_, ?_⟩
      · intro frame member
        rcases List.mem_append.1 member with inside | isLast
        · exact turns frame inside
        · rw [List.mem_singleton.1 isLast]
      · rw [plug_append, ← whole]
        rfl

/-- Delete the last node of a tree. -/
def removeLast : BinaryTree α → BinaryTree α
  | .nil => .nil
  | .node _ left .nil => left
  | .node label left (.node child between outer) =>
      rebalance (.node label left (removeLast (.node child between outer)))

theorem climb_eq_removeLast {spine : Path α} (turns : TurnsRight spine) (last : α)
    (below : BinaryTree α) :
    climb spine below = removeLast (plug spine (.node last below .nil)) := by
  induction spine using List.reverseRecOn with
  | nil => rfl
  | append_singleton spine frame ih =>
      obtain ⟨isLeft, label, sibling⟩ := frame
      obtain rfl : isLeft = false := turns ⟨isLeft, label, sibling⟩ (by simp)
      rw [climb_append, plug_append, ih fun other member => turns other (by simp [member])]
      obtain ⟨child, between, outer, whole⟩ : ∃ child between outer,
          plug spine (.node last below .nil) = .node child between outer := by
        cases whole : plug spine (.node last below .nil) with
        | nil =>
            have order := inorder_plug spine (.node last below .nil)
            simp [whole] at order
        | node child between outer => exact ⟨child, between, outer, rfl⟩
      rw [whole]
      rfl

/-- Whether the children of a node have the same height. -/
def Level : BinaryTree α → Prop
  | .nil => True
  | .node _ left right => left.height = right.height

/-- Whether deleting the last node of a balanced tree lowers its height. -/
def LastLowers : BinaryTree α → Prop
  | .nil => False
  | .node _ _ .nil => True
  | .node _ left (.node child between outer) =>
      LastLowers (.node child between outer) ∧
        (left.height < (BinaryTree.node child between outer).height ∨
          (BinaryTree.node child between outer).height < left.height ∧ ¬ Level left)

/-- Rebalancing a node whose left child is higher by two lowers it unless that child is level. -/
theorem height_rebalance_left (label : α) {left right : BinaryTree α}
    (leftBalanced : Balanced left) (high : left.height = right.height + 2) :
    (Level left → (rebalance (.node label left right)).height = left.height + 1) ∧
      (¬ Level left → (rebalance (.node label left right)).height = left.height) := by
  rcases left with _ | ⟨child, outer, inner⟩
  · simp at high
  · obtain ⟨outerLow, innerLow, -, -⟩ := leftBalanced
    have high' : right.height + 1 < (BinaryTree.node child outer inner).height := by omega
    simp only [Level]
    by_cases inward : outer.height < inner.height
    · rcases inner with _ | ⟨grand, first, second⟩
      · simp at inward
      · have rotated : rebalance (.node label (.node child outer (.node grand first second)) right) =
            .node grand (.node child outer first) (.node label second right) :=
          @rebalance_inner α true label child grand outer first second right high' inward
        rw [rotated]
        simp only [BinaryTree.height] at *
        exact ⟨fun level => by omega, fun _ => by omega⟩
    · have rotated : rebalance (.node label (.node child outer inner) right) =
          .node child outer (.node label inner right) :=
        @rebalance_outer α true label child outer inner right high' (by omega)
      rw [rotated]
      simp only [BinaryTree.height] at *
      exact ⟨fun level => by omega, fun notLevel => by omega⟩

/-- Deleting the last node keeps the balance, and tells its effect on the height. -/
theorem height_removeLast {tree : BinaryTree α} (balanced : Balanced tree)
    (some' : tree ≠ .nil) :
    Balanced (removeLast tree) ∧
      (LastLowers tree → (removeLast tree).height + 1 = tree.height) ∧
      (¬ LastLowers tree → (removeLast tree).height = tree.height) := by
  induction tree with
  | nil => exact absurd rfl some'
  | node label left right leftIH rightIH =>
      obtain ⟨leftLow, rightLow, leftBalanced, rightBalanced⟩ := balanced
      cases right with
      | nil => exact ⟨leftBalanced, fun _ => by simp [removeLast], fun not => absurd trivial not⟩
      | node child between outer =>
          obtain ⟨lastBalanced, lowers, stays⟩ := rightIH rightBalanced (by simp)
          have whole : (BinaryTree.node label left (.node child between outer)).height =
              max left.height (BinaryTree.node child between outer).height + 1 := rfl
          rw [whole, removeLast, LastLowers]
          generalize BinaryTree.node child between outer = right at *
          by_cases lower : LastLowers right
          · have shorter := lowers lower
            obtain ⟨stepBalanced, -, -, level⟩ :=
              balanced_rebalance label leftBalanced lastBalanced (by omega) (by omega)
            refine ⟨stepBalanced, ?_, ?_⟩
            · rintro ⟨-, leans | ⟨leans, notLevel⟩⟩
              · have same := level (by omega) (by omega)
                omega
              · have same := (height_rebalance_left label leftBalanced
                  (show left.height = (removeLast right).height + 2 by omega)).2 notLevel
                omega
            · intro not
              by_cases leans : right.height < left.height
              · have isLevel : Level left := by
                  by_contra notLevel
                  exact not ⟨lower, .inr ⟨leans, notLevel⟩⟩
                have same := (height_rebalance_left label leftBalanced
                  (show left.height = (removeLast right).height + 2 by omega)).1 isLevel
                omega
              · have notHigh : ¬ left.height < right.height := fun high => not ⟨lower, .inl high⟩
                have same := level (by omega) (by omega)
                omega
          · have same := stays lower
            rw [rebalance_level (by omega) (by omega)]
            refine ⟨⟨by omega, by omega, leftBalanced, lastBalanced⟩, fun lowers => ?_,
              fun _ => ?_⟩
            · exact absurd lowers.1 lower
            · simp only [BinaryTree.height, same]

theorem height_removeLast_le {tree : BinaryTree α} (balanced : Balanced tree)
    (some' : tree ≠ .nil) :
    (removeLast tree).height ≤ tree.height ∧ tree.height ≤ (removeLast tree).height + 1 := by
  obtain ⟨-, lowers, stays⟩ := height_removeLast balanced some'
  by_cases lower : LastLowers tree
  · have := lowers lower
    omega
  · have := stays lower
    omega

end Mvtx.Lib.AvlTree
