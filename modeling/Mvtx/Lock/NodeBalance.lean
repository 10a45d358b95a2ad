import Mvtx.Lock.Node

/-!
# Rotations and rebalancing in memory

`swap` rotates a node in place and `balance` climbs from a node to the root.
Both are compared here with the rotations of shapes: `swap` stores the rotated
shape, and `balance` stores the shape that `AvlTree.climb` computes, without
reaching an error branch.
-/

namespace Mvtx.Lock.AVLTreeLockNode

open Lib.AvlTree Lib.LinkedTree

theorem childHeight_root
    {links : LinkMap} {parent : Option Address} {tree : BinaryTree Address}
    (sound : Sound links parent tree) :
    childHeight links (root tree) = tree.height := by
  cases tree with
  | nil => rfl
  | node address left right =>
      simp only [root_node, childHeight, sound.1, BinaryTree.height]
      split <;> omega

/-- `updateHeight` at a node whose links are right makes its tree sound. -/
theorem updateHeight_sound
    {links : LinkMap} {parent : Option Address} {this : Address}
    {left right : BinaryTree Address}
    (loose : Loose links parent this left right)
    (fresh : this ∉ inorder left ∧ this ∉ inorder right) :
    Sound (updateHeight links this) parent (.node this left right) := by
  refine loose.sound fresh ?_ ?_
  · simp only [updateHeight, LinkMap.modify_same, loose.left_eq,
      loose.right_eq, childHeight_root loose.leftSound,
      childHeight_root loose.rightSound]
  · intro other different
    simp [updateHeight, LinkMap.modify_apply, different]

theorem updateHeight_other
    (links : LinkMap) {this other : Address} (different : other ≠ this) :
    updateHeight links this other = links other := by
  simp [updateHeight, LinkMap.modify_apply, different]

theorem updateHeight_path
    {links : LinkMap} {hole : Option Address} {path : Path Address}
    {this : Address}
    (sound : SoundPath links hole path) (fresh : this ∉ labels path) :
    SoundPath (updateHeight links this) hole path :=
  sound.congr fun _ member =>
    updateHeight_other links fun equal => fresh (equal ▸ member)

/-! ## The pointer changes of a rotation -/

theorem replaceChild_apply
    (links : LinkMap) (parent : Option Address) (this child other : Address) :
    replaceChild links parent this child other =
      if parent = some other then
        if (links other).left = some this then
          { links other with left := some child }
        else
          { links other with right := some child }
      else links other := by
  cases parent with
  | none => simp [replaceChild]
  | some address =>
      simp only [replaceChild, Option.some.injEq]
      split_ifs <;> simp_all [LinkMap.modify_apply, eq_comm]

theorem setParent_apply
    (links : LinkMap) (node : Option Address) (parent other : Address) :
    setParent links node parent other =
      if node = some other then { links other with parent := some parent }
      else links other := by
  cases node with
  | none => simp [setParent]
  | some address =>
      simp only [setParent, LinkMap.modify_apply, Option.some.injEq]
      split_ifs <;> simp_all

/-- The addresses which a rotation changes are pairwise different. -/
structure Apart (links : LinkMap) (this child : Address) (isLeft : Bool) :
    Prop where
  child_ne : child ≠ this
  above_ne_this : (links this).parent ≠ some this
  above_ne_child : (links this).parent ≠ some child
  inner_ne_this : (links child).child (!isLeft) ≠ some this
  inner_ne_child : (links child).child (!isLeft) ≠ some child
  inner_ne_above : ∀ above, (links this).parent = some above →
    (links child).child (!isLeft) ≠ some above

section Relink

variable {links : LinkMap} {this child : Address} {isLeft : Bool}

set_option linter.unusedSimpArgs false in
/-- What a rotation does to the links of every address. -/
theorem relink_apply (apart : Apart links this child isLeft) (other : Address) :
    relink links this child isLeft other =
      if other = this then
        { (links this).setChild isLeft ((links child).child (!isLeft)) with
          parent := some child }
      else if other = child then
        { (links child).setChild (!isLeft) (some this) with
          parent := (links this).parent }
      else if (links child).child (!isLeft) = some other then
        { links other with parent := some this }
      else if (links this).parent = some other then
        if (links other).left = some this then
          { links other with left := some child }
        else
          { links other with right := some child }
      else links other := by
  obtain ⟨childNe, aboveThis, aboveChild, innerThis, innerChild, innerAbove⟩ :=
    apart
  cases isLeft <;>
    simp only [Links.child, Bool.not_true, Bool.not_false, if_true,
      Bool.false_eq_true, if_false] at innerThis innerChild innerAbove <;>
    simp only [relink, Links.child, Links.setChild, Bool.not_true,
      Bool.not_false, if_true, Bool.false_eq_true, if_false] <;>
    by_cases isThis : other = this <;> by_cases isChild : other = child
  · exact absurd (isChild.symm.trans isThis) childNe
  · subst isThis
    simp [LinkMap.modify_apply, replaceChild_apply, setParent_apply, childNe,
      childNe.symm, aboveThis, aboveChild, innerThis]
  · subst isChild
    simp [LinkMap.modify_apply, replaceChild_apply, setParent_apply, childNe,
      aboveChild, innerChild]
  · simp only [LinkMap.modify_apply, replaceChild_apply, setParent_apply,
      childNe, aboveChild, isThis, isChild, if_false]
    grind
  · exact absurd (isChild.symm.trans isThis) childNe
  · subst isThis
    simp [LinkMap.modify_apply, replaceChild_apply, setParent_apply, childNe,
      childNe.symm, aboveThis, aboveChild, innerThis]
  · subst isChild
    simp [LinkMap.modify_apply, replaceChild_apply, setParent_apply, childNe,
      aboveChild, innerChild]
  · simp only [LinkMap.modify_apply, replaceChild_apply, setParent_apply,
      childNe, aboveChild, isThis, isChild, if_false]
    grind

variable {path : Path Address} {outer between far : BinaryTree Address}

/-- A rotation stores the rotated shape, heights aside. -/
theorem relink_rotate
    (loose : LooseOn links (parentOf path) this isLeft
      (nodeOn isLeft child outer between) far)
    (above : SoundPath links (some this) path)
    (nodup : (inorder (plug path
      (nodeOn isLeft this (nodeOn isLeft child outer between) far))).Nodup) :
    LooseOn (relink links this child isLeft) (some child) this isLeft between far ∧
      (relink links this child isLeft child).parent = parentOf path ∧
      (relink links this child isLeft child).child isLeft = root outer ∧
      (relink links this child isLeft child).child (!isLeft) = some this ∧
      Sound (relink links this child isLeft) (some child) outer ∧
      SoundPath (relink links this child isLeft) (some child) path ∧
      ∀ other ∉ inorder (plug path
        (nodeOn isLeft this (nodeOn isLeft child outer between) far)),
        relink links this child isLeft other = links other := by
  obtain ⟨parentEq, -, farEq, childSound, farSound⟩ := loose
  obtain ⟨-, outerEq, innerEq, outerSound, betweenSound⟩ := childSound.looseOn
  simp only [nodup_inorder_plug_iff, nodup_inorder_nodeOn, mem_inorder_nodeOn] at nodup
  have notAbove : ∀ address, address ∉ labels path →
      parentOf path ≠ some address := fun address fresh isParent =>
    fresh (parentOf_mem isParent)
  have notBetween : ∀ address, address ∉ inorder between →
      root between ≠ some address := fun address fresh isRoot =>
    fresh (root_mem_inorder isRoot)
  have apart : Apart links this child isLeft := by
    constructor
    · grind
    · exact parentEq ▸ notAbove this (by grind)
    · exact parentEq ▸ notAbove child (by grind)
    · exact innerEq ▸ notBetween this (by grind)
    · exact innerEq ▸ notBetween child (by grind)
    · intro address isParent
      have := parentOf_mem (parentEq ▸ isParent)
      exact innerEq ▸ notBetween address (by grind)
  have atThis := relink_apply apart this
  have atChild := relink_apply apart child
  have elsewhere := relink_apply apart
  simp only [if_true, innerEq, parentEq, apart.child_ne, if_false] at atThis atChild elsewhere
  refine ⟨⟨?_, ?_, ?_, ?_, ?_⟩, ?_, ?_, ?_, ?_, ?_, ?_⟩
  · rw [atThis]
  · simp [atThis]
  · simpa [atThis] using farEq
  · refine betweenSound.reparent (by grind) ?_ ?_
    · intro address member notRoot
      have := notAbove address
      grind
    · intro address isRoot
      have := root_mem_inorder isRoot
      grind
  · refine farSound.congr fun address member => ?_
    have := notAbove address
    have := notBetween address
    grind
  · rw [atChild]
  · simpa [atChild] using outerEq
  · simp [atChild]
  · refine outerSound.congr fun address member => ?_
    have := notAbove address
    have := notBetween address
    grind
  · refine above.replace (by grind) (by grind) ?_ ?_
    · intro address member notParent
      have := notBetween address
      grind
    · intro address isParent
      have := parentOf_mem isParent
      have := notBetween address
      grind
  · intro other outside
    simp only [mem_inorder_plug, mem_inorder_nodeOn, not_or] at outside
    have := notAbove other outside.1
    have := notBetween other
    grind

/-- A rotation with both heights updated stores the rotated shape. -/
theorem updateHeight_relink
    (loose : LooseOn links (parentOf path) this isLeft
      (nodeOn isLeft child outer between) far)
    (above : SoundPath links (some this) path)
    (nodup : (inorder (plug path
      (nodeOn isLeft this (nodeOn isLeft child outer between) far))).Nodup) :
    Sound
        (updateHeight (updateHeight (relink links this child isLeft) this) child)
        (parentOf path)
        (nodeOn isLeft child outer (nodeOn isLeft this between far)) ∧
      SoundPath
        (updateHeight (updateHeight (relink links this child isLeft) this) child)
        (some child) path ∧
      ∀ other ∉ inorder (plug path
        (nodeOn isLeft this (nodeOn isLeft child outer between) far)),
        updateHeight (updateHeight (relink links this child isLeft) this) child other =
          links other := by
  obtain ⟨thisLoose, parentEq, outerEq, innerEq, outerSound, pathSound, frame⟩ :=
    relink_rotate loose above nodup
  simp only [nodup_inorder_plug_iff, nodup_inorder_nodeOn, mem_inorder_nodeOn] at nodup
  have childNe : child ≠ this := by grind
  set rotated := relink links this child isLeft
  have lower : Sound (updateHeight rotated this) (some child)
      (nodeOn isLeft this between far) := by
    cases isLeft with
    | false => exact updateHeight_sound (looseOn_right_iff.1 thisLoose) (by grind)
    | true => exact updateHeight_sound (looseOn_left_iff.1 thisLoose) (by grind)
  have atChild : updateHeight rotated this child = rotated child :=
    updateHeight_other rotated childNe
  have upper : LooseOn (updateHeight rotated this) (parentOf path) child isLeft
      outer (nodeOn isLeft this between far) := by
    refine ⟨by rw [atChild, parentEq], by rw [atChild, outerEq],
      by rw [atChild, innerEq, root_nodeOn], ?_, lower⟩
    exact outerSound.congr fun address member =>
      updateHeight_other rotated (by grind)
  have freshPath : this ∉ labels path ∧ child ∉ labels path := by grind
  refine ⟨?_, updateHeight_path (updateHeight_path pathSound freshPath.1) freshPath.2,
    fun other outside => ?_⟩
  swap
  · have outside' := outside
    simp only [mem_inorder_plug, mem_inorder_nodeOn, not_or] at outside'
    rw [updateHeight_other _ (by grind), updateHeight_other _ (by grind)]
    exact frame other outside
  have freshChild : child ∉ inorder outer ∧
      child ∉ inorder (nodeOn isLeft this between far) := by
    rw [mem_inorder_nodeOn]
    grind
  cases isLeft with
  | false =>
      exact updateHeight_sound (looseOn_right_iff.1 upper) freshChild.symm
  | true => exact updateHeight_sound (looseOn_left_iff.1 upper) freshChild

end Relink

/-! ## Balancing -/

section Balance

variable {heap : NodeHeap} {path : Path Address} {this child : Address}
variable {isLeft : Bool} {outer between far left right : BinaryTree Address}

/-- `swap` of a child that is there. -/
theorem swap_eq (near : (heap.links this).child isLeft = some child) :
    swap heap this isLeft =
      { heap with
        links := updateHeight
          (updateHeight (relink heap.links this child isLeft) this) child } := by
  simp only [Links.child] at near
  simp [swap, near]

/-- `swap` stores the rotated shape. -/
theorem swap_rotate
    (loose : LooseOn heap.links (parentOf path) this isLeft
      (nodeOn isLeft child outer between) far)
    (above : SoundPath heap.links (some this) path)
    (nodup : (inorder (plug path
      (nodeOn isLeft this (nodeOn isLeft child outer between) far))).Nodup) :
    ∃ links,
      swap heap this isLeft = { heap with links := links } ∧
        Sound links (parentOf path)
          (nodeOn isLeft child outer (nodeOn isLeft this between far)) ∧
        SoundPath links (some child) path ∧
        ∀ other ∉ inorder (plug path
          (nodeOn isLeft this (nodeOn isLeft child outer between) far)),
          links other = heap.links other := by
  have near : (heap.links this).child isLeft = some child := by
    rw [loose.near_eq, root_nodeOn]
  exact ⟨_, swap_eq near, updateHeight_relink loose above nodup⟩

theorem balanceFactor_eq
    {parent : Option Address} (sound : Sound heap.links parent (.node this left right)) :
    balanceFactor heap this = (right.height : Int) - left.height := by
  simp [balanceFactor, sound.1]

/-- A double rotation, first at the child and then at the node. -/
theorem swap_swap_rotate
    {grandchild : Address} {first second : BinaryTree Address}
    (sound : Sound heap.links (parentOf path)
      (nodeOn isLeft this
        (nodeOn isLeft child outer (nodeOn (!isLeft) grandchild second first)) far))
    (above : SoundPath heap.links (some this) path)
    (nodup : (inorder (plug path (nodeOn isLeft this
      (nodeOn isLeft child outer (nodeOn (!isLeft) grandchild second first))
      far))).Nodup) :
    ∃ links,
      swap (swap heap child (!isLeft)) this isLeft = { heap with links := links } ∧
        Sound links (parentOf path)
          (nodeOn isLeft grandchild (nodeOn isLeft child outer first)
            (nodeOn isLeft this second far)) ∧
        SoundPath links (some grandchild) path ∧
        ∀ other ∉ inorder (plug path (nodeOn isLeft this
          (nodeOn isLeft child outer (nodeOn (!isLeft) grandchild second first)) far)),
          links other = heap.links other := by
  have thisLoose := sound.looseOn
  have childPath := thisLoose.soundPath above
  have childLoose : LooseOn heap.links (some this) child (!isLeft)
      (nodeOn (!isLeft) grandchild second first) outer := by
    have childSound := thisLoose.nearSound
    rw [← nodeOn_not] at childSound
    exact childSound.looseOn
  rw [root_nodeOn] at childPath
  have distinct : (inorder (plug (⟨isLeft, this, far⟩ :: path)
      (nodeOn (!isLeft) child (nodeOn (!isLeft) grandchild second first)
        outer))).Nodup := by
    rw [nodeOn_not isLeft child]
    exact nodup
  obtain ⟨links, firstSwap, inward, inwardPath, firstFrame⟩ :=
    swap_rotate childLoose childPath distinct
  rw [nodeOn_not isLeft grandchild, nodeOn_not isLeft child] at inward
  have turned : SoundPath links
      (root (nodeOn isLeft grandchild (nodeOn isLeft child outer first) second))
      (⟨isLeft, this, far⟩ :: path) := by
    rw [root_nodeOn]
    exact inwardPath
  obtain ⟨outward, outwardPath⟩ := turned.looseOn inward
  have distinct' : (inorder (plug path (nodeOn isLeft this
      (nodeOn isLeft grandchild (nodeOn isLeft child outer first) second)
      far))).Nodup := by
    simp only [nodup_inorder_plug_iff, nodup_inorder_nodeOn, mem_inorder_nodeOn] at nodup ⊢
    grind
  obtain ⟨links', secondSwap, whole, wholePath, secondFrame⟩ :=
    swap_rotate
      (show LooseOn ({ heap with links := links } : NodeHeap).links _ _ _ _ _ from outward)
      outwardPath distinct'
  refine ⟨links', by rw [firstSwap, secondSwap], whole, wholePath, fun other outside => ?_⟩
  rw [nodeOn_not isLeft child] at firstFrame
  refine (secondFrame other ?_).trans (firstFrame other outside)
  simp only [mem_inorder_plug, mem_inorder_nodeOn] at outside ⊢
  tauto

/--
The rotations of `balance` at a node whose child on one side is too high:
first at the child when it leans to the inside, then at the node.
-/
theorem rotate_high
    {near : BinaryTree Address}
    (sound : Sound heap.links (parentOf path) (nodeOn isLeft this near far))
    (above : SoundPath heap.links (some this) path)
    (nodup : (inorder (plug path (nodeOn isLeft this near far))).Nodup)
    (high : far.height + 1 < near.height) (balanced : Balanced near) :
    ∃ child outer between links,
      near = nodeOn isLeft child outer between ∧
        outer.height ≤ between.height + 1 ∧ between.height ≤ outer.height + 1 ∧
        (if between.height = outer.height + 1 then
            swap (swap heap child (!isLeft)) this isLeft
          else swap heap this isLeft) = { heap with links := links } ∧
        Sound links (parentOf path) (rebalance (nodeOn isLeft this near far)) ∧
        SoundPath links (root (rebalance (nodeOn isLeft this near far))) path ∧
        ∀ other ∉ inorder (plug path (nodeOn isLeft this near far)),
          links other = heap.links other := by
  obtain ⟨child, outer, between, rfl⟩ :
      ∃ child outer between, near = nodeOn isLeft child outer between := by
    rcases near with _ | ⟨child, first, second⟩
    · simp at high
    · cases isLeft with
      | true => exact ⟨child, first, second, rfl⟩
      | false => exact ⟨child, second, first, rfl⟩
  obtain ⟨outerClose, betweenClose, -, -⟩ := balanced_nodeOn_iff.1 balanced
  by_cases leans : between.height = outer.height + 1
  · obtain ⟨grandchild, first, second, rfl⟩ :
        ∃ grandchild first second,
          between = nodeOn (!isLeft) grandchild second first := by
      rcases between with _ | ⟨grandchild, first, second⟩
      · simp at leans
      · cases isLeft with
        | true => exact ⟨grandchild, first, second, rfl⟩
        | false => exact ⟨grandchild, second, first, rfl⟩
    obtain ⟨links, swapped, rotated, rotatedPath, frame⟩ :=
      swap_swap_rotate sound above nodup
    refine ⟨child, outer, _, links, rfl, outerClose, betweenClose, ?_, ?_, ?_, frame⟩
    · rw [if_pos leans, swapped]
    · rw [rebalance_inner high (by omega)]
      exact rotated
    · rw [rebalance_inner high (by omega), root_nodeOn]
      exact rotatedPath
  · obtain ⟨links, swapped, rotated, rotatedPath, frame⟩ :=
      swap_rotate sound.looseOn above nodup
    refine ⟨child, outer, between, links, rfl, outerClose, betweenClose, ?_, ?_, ?_, frame⟩
    · rw [if_neg leans, swapped]
    · rw [rebalance_outer high (by omega)]
      exact rotated
    · rw [rebalance_outer high (by omega), root_nodeOn]
      exact rotatedPath

/-- The rotations of `balance` store the rebalanced shape, without an error. -/
theorem restore_rebalance
    (sound : Sound heap.links (parentOf path) (.node this left right))
    (above : SoundPath heap.links (some this) path)
    (nodup : (inorder (plug path (.node this left right))).Nodup)
    (leftBalanced : Balanced left) (rightBalanced : Balanced right) :
    ∃ links,
      restore heap this = .ok ({ heap with links := links }, true) ∧
        Sound links (parentOf path) (rebalance (.node this left right)) ∧
        SoundPath links (root (rebalance (.node this left right))) path ∧
        ∀ other ∉ inorder (plug path (.node this left right)),
          links other = heap.links other := by
  have factor : balanceFactor heap this = (right.height : Int) - left.height :=
    balanceFactor_eq sound
  by_cases leftHigh : right.height + 1 < left.height
  · obtain ⟨child, outer, between, links, rfl, outerClose, betweenClose, swapped,
      rotated, rotatedPath, frame⟩ := rotate_high
        (show Sound heap.links (parentOf path) (nodeOn true this left right) from sound)
        above nodup leftHigh leftBalanced
    have childFactor : balanceFactor heap child =
        (between.height : Int) - outer.height := balanceFactor_eq sound.2.1
    have childPtr : (heap.links this).left = some child := by
      rw [sound.1]
      rfl
    refine ⟨links, ?_, rotated, rotatedPath, frame⟩
    rw [restore, factor, if_pos (by omega), childPtr]
    simp only [deref, childFactor, bind, Except.bind]
    rw [← swapped]
    by_cases leans : between.height = outer.height + 1
    · rw [if_pos (by omega), if_pos leans]
      rfl
    · rw [if_neg (by omega), if_neg (by omega), if_neg leans]
      rfl
  · by_cases rightHigh : left.height + 1 < right.height
    · obtain ⟨child, outer, between, links, rfl, outerClose, betweenClose, swapped,
        rotated, rotatedPath, frame⟩ := rotate_high
          (show Sound heap.links (parentOf path) (nodeOn false this right left) from sound)
          above nodup rightHigh rightBalanced
      have childFactor : balanceFactor heap child =
          (outer.height : Int) - between.height := balanceFactor_eq sound.2.2
      have childPtr : (heap.links this).right = some child := by
        rw [sound.1]
        rfl
      refine ⟨links, ?_, rotated, rotatedPath, frame⟩
      rw [restore, factor, if_neg (by omega), if_pos (by omega), childPtr]
      simp only [deref, childFactor, bind, Except.bind]
      rw [← swapped]
      by_cases leans : between.height = outer.height + 1
      · rw [if_pos (by omega), if_pos leans]
        rfl
      · rw [if_neg (by omega), if_neg (by omega), if_neg leans]
        rfl
    · rw [rebalance_level (by omega) (by omega)]
      refine ⟨heap.links, ?_, sound, above, fun _ _ => rfl⟩
      rw [restore, factor, if_neg (by omega), if_neg (by omega)]
      rfl

/-- One step of `balance`: the node is rebalanced and its parent is next. -/
theorem balance_step
    (fuel : Nat) (loose : Loose heap.links (parentOf path) this left right)
    (above : SoundPath heap.links (some this) path)
    (nodup : (inorder (plug path (.node this left right))).Nodup)
    (leftBalanced : Balanced left) (rightBalanced : Balanced right) :
    ∃ links,
      balance (fuel + 1) heap this =
          (match parentOf path with
          | none => .ok { heap with links := links }
          | some parent => balance fuel { heap with links := links } parent) ∧
        Sound links (parentOf path) (rebalance (.node this left right)) ∧
        SoundPath links (root (rebalance (.node this left right))) path ∧
        ∀ other ∉ inorder (plug path (.node this left right)),
          links other = heap.links other := by
  obtain ⟨-, treeNodup, apart⟩ := nodup_inorder_plug_iff.1 nodup
  have fresh : this ∉ inorder left ∧ this ∉ inorder right := by
    simp only [inorder_node, List.nodup_append, List.nodup_cons,
      List.mem_cons] at treeNodup
    grind
  have measuredPath : SoundPath (updateHeight heap.links this) (some this) path :=
    updateHeight_path above fun member => apart this member (by simp)
  obtain ⟨links, restored, sound, soundPath, frame⟩ :=
    restore_rebalance
      (show Sound ({ heap with links := updateHeight heap.links this } : NodeHeap).links
        _ _ from updateHeight_sound loose fresh) measuredPath nodup leftBalanced rightBalanced
  refine ⟨links, ?_, sound, soundPath, fun other outside => ?_⟩
  · rw [balance, loose.parent_eq, restored]
    cases parentOf path <;> rfl
  · refine (frame other outside).trans (updateHeight_other _ ?_)
    rintro rfl
    exact outside (mem_inorder_plug.2 (.inr (by simp)))

/--
`balance` from a node whose subtree has changed its height by at most one
rebalances the path to the root.
-/
theorem balance_climb
    {fuel height : Nat}
    (loose : Loose heap.links (parentOf path) this left right)
    (above : SoundPath heap.links (some this) path)
    (nodup : (inorder (plug path (.node this left right))).Nodup)
    (leftBalanced : Balanced left) (rightBalanced : Balanced right)
    (leftClose : left.height ≤ right.height + 2)
    (rightClose : right.height ≤ left.height + 2)
    (pathBalanced : BalancedPath path height)
    (grown : (rebalance (.node this left right)).height ≤ height + 1)
    (shrunk : height ≤ (rebalance (.node this left right)).height + 1)
    (enough : path.length < fuel) :
    ∃ links,
      balance fuel heap this = .ok { heap with links := links } ∧
        Sound links none (climb path (rebalance (.node this left right))) ∧
        ∀ other ∉ inorder (plug path (.node this left right)),
          links other = heap.links other := by
  induction path generalizing heap this left right fuel height with
  | nil =>
      obtain ⟨fuel, rfl⟩ := Nat.exists_eq_succ_of_ne_zero (Nat.ne_of_gt enough)
      obtain ⟨links, stepped, sound, -, frame⟩ :=
        balance_step fuel loose above nodup leftBalanced rightBalanced
      exact ⟨links, stepped, sound, frame⟩
  | cons frame path ih =>
      obtain ⟨fuel, rfl⟩ :=
        Nat.exists_eq_succ_of_ne_zero (Nat.ne_of_gt (Nat.zero_lt_of_lt enough))
      obtain ⟨links, stepped, sound, soundPath, frameStep⟩ :=
        balance_step fuel loose above nodup leftBalanced rightBalanced
      obtain ⟨here, above⟩ := soundPath.looseOn sound
      obtain ⟨left', right', filled, loose', sides⟩ := here.loose
      obtain ⟨slope, siblingSlope, siblingBalanced, rest⟩ := pathBalanced
      have rebalanced := balanced_rebalance this leftBalanced
        rightBalanced leftClose rightClose
      have next := rebalance_fill frame height rebalanced.1 siblingBalanced slope
        siblingSlope grown shrunk
      have order : inorder (plug path (frame.fill (rebalance (.node this left right)))) =
          inorder (plug (frame :: path) (.node this left right)) := by
        rw [inorder_plug, before_append_fill_append_after, inorder_rebalance,
          ← inorder_plug]
      have distinct := order ▸ nodup
      rw [Frame.fill, filled] at next distinct order
      rw [climb, Frame.fill, filled]
      have stepParent : balance (fuel + 1) heap this =
          balance fuel { heap with links := links } frame.label := stepped
      rw [stepParent]
      have climbed : ∃ links',
          balance fuel { heap with links := links } frame.label =
              .ok { heap with links := links' } ∧
            Sound links' none (climb path (rebalance (.node frame.label left' right'))) ∧
            ∀ other ∉ inorder (plug path (.node frame.label left' right')),
              links' other = links other := by
        rcases sides with ⟨rfl, rfl⟩ | ⟨rfl, rfl⟩
        · exact @ih { heap with links := links } _ _ _ _ _ loose' above distinct
            rebalanced.1 siblingBalanced (by omega) (by omega) rest next.2.1
            next.2.2 (by simpa using enough)
        · exact @ih { heap with links := links } _ _ _ _ _ loose' above distinct
            siblingBalanced rebalanced.1 (by omega) (by omega) rest next.2.1
            next.2.2 (by simpa using enough)
      obtain ⟨links', balanced, sound', frameRest⟩ := climbed
      exact ⟨links', balanced, sound', fun other outside =>
        (frameRest other (order ▸ outside)).trans (frameStep other outside)⟩

/-- `balance` from a node one of whose subtrees has changed its height by at most one. -/
theorem balance_climbOn
    {fuel height : Nat} {near : BinaryTree Address}
    (loose : LooseOn heap.links (parentOf path) this isLeft near far)
    (above : SoundPath heap.links (some this) path)
    (nodup : (inorder (plug (⟨isLeft, this, far⟩ :: path) near)).Nodup)
    (nearBalanced : Balanced near)
    (pathBalanced : BalancedPath (⟨isLeft, this, far⟩ :: path) height)
    (grown : near.height ≤ height + 1) (shrunk : height ≤ near.height + 1)
    (enough : path.length < fuel) :
    ∃ links,
      balance fuel heap this = .ok { heap with links := links } ∧
        Sound links none (climb (⟨isLeft, this, far⟩ :: path) near) ∧
        ∀ other ∉ inorder (plug (⟨isLeft, this, far⟩ :: path) near),
          links other = heap.links other := by
  obtain ⟨left, right, filled, loose', sides⟩ := loose.loose
  obtain ⟨slope, farSlope, farBalanced, rest⟩ := pathBalanced
  have next := rebalance_fill ⟨isLeft, this, far⟩ height nearBalanced farBalanced slope farSlope
    grown shrunk
  simp only [] at slope farSlope rest
  rw [plug, Frame.fill, filled] at nodup ⊢
  rw [Frame.fill, filled] at next
  rw [climb, Frame.fill, filled]
  rcases sides with ⟨rfl, rfl⟩ | ⟨rfl, rfl⟩
  · exact balance_climb loose' above nodup nearBalanced farBalanced (by omega) (by omega) rest
      next.2.1 next.2.2 enough
  · exact balance_climb loose' above nodup farBalanced nearBalanced (by omega) (by omega) rest
      next.2.1 next.2.2 enough

end Balance

end Mvtx.Lock.AVLTreeLockNode
