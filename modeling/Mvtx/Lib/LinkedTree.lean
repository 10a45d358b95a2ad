import Mvtx.Lib.AvlDelete
import Mathlib.Logic.Function.Basic

/-!
# Binary trees stored as links

A tree in memory is a map from addresses to links: parent, left child, right
child and the stored heights of the two children.  `Sound` says that such a
map stores a given shape, with consistent parent links and correct stored
heights; `SoundPath` says the same of everything off a path to the root, and
leaves the heights stored at the nodes of the path open, since they are stale
while a change below travels up.

The frame lemmas say that both only depend on the links at the addresses of
the shape.
-/

namespace Mvtx.Lib.LinkedTree

open AvlTree

/-- The address of a tree node. -/
abbrev Address := Nat

/-- The part of a tree node which places it in the tree. -/
structure Links where
  leftHeight : Nat
  rightHeight : Nat
  parent : Option Address
  left : Option Address
  right : Option Address
  deriving DecidableEq, Repr

namespace Links

/-- The links of a node that is in no tree. -/
def detached : Links where
  leftHeight := 0
  rightHeight := 0
  parent := none
  left := none
  right := none

/-- The height of the tree below a node, as the node stores it. -/
def height (links : Links) : Nat := max links.leftHeight links.rightHeight + 1

/-- The child on one side of a node. -/
def child (links : Links) (isLeft : Bool) : Option Address :=
  if isLeft then links.left else links.right

/-- Replace the child on one side of a node. -/
def setChild (links : Links) (isLeft : Bool) (child : Option Address) : Links :=
  if isLeft then { links with left := child } else { links with right := child }

@[simp] theorem child_setChild_same
    (links : Links) (isLeft : Bool) (child : Option Address) :
    (links.setChild isLeft child).child isLeft = child := by
  cases isLeft <;> rfl

@[simp] theorem child_setChild_other
    (links : Links) (isLeft : Bool) (child : Option Address) :
    (links.setChild isLeft child).child (!isLeft) = links.child (!isLeft) := by
  cases isLeft <;> rfl

@[simp] theorem child_not_setChild
    (links : Links) (isLeft : Bool) (child : Option Address) :
    (links.setChild (!isLeft) child).child isLeft = links.child isLeft := by
  cases isLeft <;> rfl

@[simp] theorem setChild_parent
    (links : Links) (isLeft : Bool) (child : Option Address) :
    (links.setChild isLeft child).parent = links.parent := by
  cases isLeft <;> rfl

@[simp] theorem child_parent
    (links : Links) (isLeft : Bool) (parent : Option Address) :
    ({ links with parent := parent } : Links).child isLeft =
      links.child isLeft := by
  cases isLeft <;> rfl

end Links

/-- The links of every address. -/
abbrev LinkMap := Address → Links

/-- Change the links of one address. -/
def LinkMap.modify (map : LinkMap) (address : Address)
    (change : Links → Links) : LinkMap :=
  Function.update map address (change (map address))

@[simp]
theorem LinkMap.modify_same (map : LinkMap) (address : Address)
    (change : Links → Links) :
    map.modify address change address = change (map address) := by
  simp [LinkMap.modify]

theorem LinkMap.modify_apply (map : LinkMap) (address other : Address)
    (change : Links → Links) :
    map.modify address change other =
      if other = address then change (map address) else map other := by
  simp [LinkMap.modify, Function.update_apply]

/-- The address of the root of a shape. -/
def root : BinaryTree Address → Option Address
  | .nil => none
  | .node address _ _ => some address

@[simp] theorem root_nil : root .nil = none := rfl

@[simp] theorem root_node (address : Address) (left right : BinaryTree Address) :
    root (.node address left right) = some address := rfl

theorem root_mem_inorder {tree : BinaryTree Address} {address : Address}
    (isRoot : root tree = some address) : address ∈ inorder tree := by
  cases tree with
  | nil => simp at isRoot
  | node label left right =>
      simp only [root_node, Option.some.injEq] at isRoot
      simp [isRoot]

/-- The links store the shape below the given parent. -/
def Sound (map : LinkMap) : Option Address → BinaryTree Address → Prop
  | _, .nil => True
  | parent, .node address left right =>
      map address =
          { leftHeight := left.height
            rightHeight := right.height
            parent := parent
            left := root left
            right := root right } ∧
        Sound map (some address) left ∧ Sound map (some address) right

/-- The node which a path enters first. -/
def parentOf : Path Address → Option Address
  | [] => none
  | frame :: _ => some frame.label

@[simp] theorem parentOf_nil : parentOf [] = none := rfl

@[simp] theorem parentOf_cons (frame : Frame Address) (path : Path Address) :
    parentOf (frame :: path) = some frame.label := rfl

/-- The links store everything off a path whose end is the given address. -/
def SoundPath (map : LinkMap) : Option Address → Path Address → Prop
  | _, [] => True
  | hole, frame :: path =>
      (map frame.label).parent = parentOf path ∧
        (map frame.label).child frame.isLeft = hole ∧
        (map frame.label).child (!frame.isLeft) = root frame.sibling ∧
        Sound map (some frame.label) frame.sibling ∧
        SoundPath map (some frame.label) path

/-! ## Frame lemmas -/

theorem Sound.congr
    {map map' : LinkMap} {parent : Option Address} {tree : BinaryTree Address}
    (sound : Sound map parent tree)
    (same : ∀ address ∈ inorder tree, map' address = map address) :
    Sound map' parent tree := by
  induction tree generalizing parent with
  | nil => trivial
  | node address left right leftIH rightIH =>
      obtain ⟨here, leftSound, rightSound⟩ := sound
      refine ⟨?_, leftIH leftSound ?_, rightIH rightSound ?_⟩
      · rw [same address (by simp), here]
      · exact fun other member => same other (by simp [member])
      · exact fun other member => same other (by simp [member])

/-- The children of the addresses of a shape belong to it. -/
theorem Sound.closed
    {map : LinkMap} {parent : Option Address} {tree : BinaryTree Address}
    (sound : Sound map parent tree) {address child : Address}
    (member : address ∈ inorder tree)
    (isChild : (map address).left = some child ∨ (map address).right = some child) :
    child ∈ inorder tree := by
  induction tree generalizing parent with
  | nil => simp at member
  | node label left right leftIH rightIH =>
      obtain ⟨here, leftSound, rightSound⟩ := sound
      simp only [inorder_node, List.mem_append, List.mem_cons] at member ⊢
      rcases member with inLeft | rfl | inRight
      · exact .inl (leftIH leftSound inLeft)
      · rw [here] at isChild
        exact isChild.imp root_mem_inorder fun isRoot => .inr (root_mem_inorder isRoot)
      · exact .inr (.inr (rightIH rightSound inRight))

/-- What lies below an address on its left comes right before it. -/
theorem Sound.exists_left
    {map : LinkMap} {parent : Option Address} {tree : BinaryTree Address}
    (sound : Sound map parent tree) {address : Address}
    (member : address ∈ inorder tree) :
    ∃ left before after, (map address).left = root left ∧
      Sound map (some address) left ∧
        inorder tree = before ++ inorder left ++ address :: after := by
  induction tree generalizing parent with
  | nil => simp at member
  | node label left right leftIH rightIH =>
      obtain ⟨here, leftSound, rightSound⟩ := sound
      simp only [inorder_node, List.mem_append, List.mem_cons] at member
      rcases member with inLeft | rfl | inRight
      · obtain ⟨below, before, after, link, stored, split⟩ := leftIH leftSound inLeft
        exact ⟨below, before, after ++ label :: inorder right, link, stored, by simp [split]⟩
      · exact ⟨left, [], inorder right, by rw [here], leftSound, by simp⟩
      · obtain ⟨below, before, after, link, stored, split⟩ := rightIH rightSound inRight
        exact ⟨below, inorder left ++ label :: before, after, link, stored, by simp [split]⟩

theorem SoundPath.congr
    {map map' : LinkMap} {hole : Option Address} {path : Path Address}
    (sound : SoundPath map hole path)
    (same : ∀ address ∈ labels path, map' address = map address) :
    SoundPath map' hole path := by
  induction path generalizing hole with
  | nil => trivial
  | cons frame path ih =>
      have here : map' frame.label = map frame.label :=
        same _ (mem_labels_cons.2 (.inl rfl))
      have siblings : ∀ address ∈ inorder frame.sibling,
          map' address = map address := fun address member =>
        same _ (mem_labels_cons.2 (.inr (.inl member)))
      have rest : ∀ address ∈ labels path, map' address = map address :=
        fun address member =>
          same _ (mem_labels_cons.2 (.inr (.inr member)))
      obtain ⟨parent, child, siblingRoot, sibling, above⟩ := sound
      simp only [SoundPath, here]
      exact ⟨parent, child, siblingRoot, sibling.congr siblings, ih above rest⟩

theorem parentOf_mem {path : Path Address} {address : Address}
    (isParent : parentOf path = some address) : address ∈ labels path := by
  cases path with
  | nil => simp at isParent
  | cons frame path =>
      exact mem_labels_cons.2 (.inl (by simpa using isParent.symm))

/-- Hanging another subtree at the end of a path changes one link. -/
theorem SoundPath.replace
    {map map' : LinkMap} {path : Path Address} {this child : Address}
    (sound : SoundPath map (some this) path)
    (nodup : (labels path).Nodup) (fresh : this ∉ labels path)
    (same : ∀ address ∈ labels path, parentOf path ≠ some address →
      map' address = map address)
    (changed : ∀ address, parentOf path = some address →
      map' address =
        if (map address).left = some this then
          { map address with left := some child }
        else
          { map address with right := some child }) :
    SoundPath map' (some child) path := by
  cases path with
  | nil => trivial
  | cons frame path =>
      have labelFresh := nodup_labels_cons nodup
      have siblings : ∀ address ∈ inorder frame.sibling,
          map' address = map address := by
        intro address member
        refine same _ (mem_labels_cons.2 (.inr (.inl member))) ?_
        rintro ⟨⟩
        exact labelFresh.1 member
      have rest : ∀ address ∈ labels path, map' address = map address := by
        intro address member
        refine same _ (mem_labels_cons.2 (.inr (.inr member))) ?_
        rintro ⟨⟩
        exact labelFresh.2 member
      have here := changed frame.label rfl
      obtain ⟨parent, hole, siblingRoot, sibling, above⟩ := sound
      have turned : map' frame.label =
          (map frame.label).setChild frame.isLeft (some child) := by
        rw [here]
        cases side : frame.isLeft with
        | true =>
            simp only [side, Links.child, if_true] at hole
            simp [hole, Links.setChild]
        | false =>
            simp only [side, Links.child, Bool.not_false, if_true] at siblingRoot
            have notLeft : (map frame.label).left ≠ some this := by
              rw [siblingRoot]
              intro isRoot
              exact fresh
                (mem_labels_cons.2 (.inr (.inl (root_mem_inorder isRoot))))
            simp [notLeft, Links.setChild]
      simp only [SoundPath, turned, Links.setChild_parent,
        Links.child_setChild_same, Links.child_setChild_other]
      exact ⟨parent, trivial, siblingRoot, sibling.congr siblings,
        above.congr rest⟩

/-- Moving a tree below another parent changes the links of its root only. -/
theorem Sound.reparent
    {map map' : LinkMap} {parent parent' : Option Address}
    {tree : BinaryTree Address}
    (sound : Sound map parent tree) (nodup : (inorder tree).Nodup)
    (same : ∀ address ∈ inorder tree, root tree ≠ some address →
      map' address = map address)
    (moved : ∀ address, root tree = some address →
      map' address = { map address with parent := parent' }) :
    Sound map' parent' tree := by
  cases tree with
  | nil => trivial
  | node address left right =>
      obtain ⟨here, leftSound, rightSound⟩ := sound
      simp only [inorder_node, List.nodup_append, List.nodup_cons,
        List.mem_cons] at nodup
      refine ⟨?_, leftSound.congr ?_, rightSound.congr ?_⟩
      · rw [moved address rfl, here]
      · intro other member
        refine same other (by simp [member]) ?_
        simp only [root_node, ne_eq, Option.some.injEq]
        rintro rfl
        exact nodup.2.2 _ member _ (.inl rfl) rfl
      · intro other member
        refine same other (by simp [member]) ?_
        simp only [root_node, ne_eq, Option.some.injEq]
        rintro rfl
        exact nodup.2.1.1 member

/--
The links of a node and of the trees below it are right, and the heights
stored at the node itself are open.
-/
structure Loose (map : LinkMap) (parent : Option Address) (address : Address)
    (left right : BinaryTree Address) : Prop where
  parent_eq : (map address).parent = parent
  left_eq : (map address).left = root left
  right_eq : (map address).right = root right
  leftSound : Sound map (some address) left
  rightSound : Sound map (some address) right

theorem Sound.loose
    {map : LinkMap} {parent : Option Address} {address : Address}
    {left right : BinaryTree Address}
    (sound : Sound map parent (.node address left right)) :
    Loose map parent address left right where
  parent_eq := by rw [sound.1]
  left_eq := by rw [sound.1]
  right_eq := by rw [sound.1]
  leftSound := sound.2.1
  rightSound := sound.2.2

@[simp]
theorem root_nodeOn (isLeft : Bool) (address : Address)
    (near far : BinaryTree Address) :
    root (nodeOn isLeft address near far) = some address := by
  cases isLeft <;> rfl

/-- `Loose`, with the subtrees named by their side. -/
structure LooseOn (map : LinkMap) (parent : Option Address) (address : Address)
    (isLeft : Bool) (near far : BinaryTree Address) : Prop where
  parent_eq : (map address).parent = parent
  near_eq : (map address).child isLeft = root near
  far_eq : (map address).child (!isLeft) = root far
  nearSound : Sound map (some address) near
  farSound : Sound map (some address) far

theorem looseOn_left_iff
    {map : LinkMap} {parent : Option Address} {address : Address}
    {near far : BinaryTree Address} :
    LooseOn map parent address true near far ↔
      Loose map parent address near far :=
  ⟨fun ⟨h1, h2, h3, h4, h5⟩ => ⟨h1, h2, h3, h4, h5⟩,
    fun ⟨h1, h2, h3, h4, h5⟩ => ⟨h1, h2, h3, h4, h5⟩⟩

theorem looseOn_right_iff
    {map : LinkMap} {parent : Option Address} {address : Address}
    {near far : BinaryTree Address} :
    LooseOn map parent address false near far ↔
      Loose map parent address far near :=
  ⟨fun ⟨h1, h2, h3, h4, h5⟩ => ⟨h1, h3, h2, h5, h4⟩,
    fun ⟨h1, h2, h3, h4, h5⟩ => ⟨h1, h3, h2, h5, h4⟩⟩

/-- A node with named sides, seen as a node with a left and a right child. -/
theorem LooseOn.loose
    {map : LinkMap} {parent : Option Address} {address : Address}
    {isLeft : Bool} {near far : BinaryTree Address}
    (loose : LooseOn map parent address isLeft near far) :
    ∃ left right,
      nodeOn isLeft address near far = .node address left right ∧
        Loose map parent address left right ∧
        (left = near ∧ right = far ∨ left = far ∧ right = near) := by
  cases isLeft with
  | true => exact ⟨near, far, rfl, looseOn_left_iff.1 loose, .inl ⟨rfl, rfl⟩⟩
  | false => exact ⟨far, near, rfl, looseOn_right_iff.1 loose, .inr ⟨rfl, rfl⟩⟩

theorem Sound.looseOn
    {map : LinkMap} {parent : Option Address} {address : Address}
    {isLeft : Bool} {near far : BinaryTree Address}
    (sound : Sound map parent (nodeOn isLeft address near far)) :
    LooseOn map parent address isLeft near far := by
  cases isLeft with
  | false => exact looseOn_right_iff.2 sound.loose
  | true => exact looseOn_left_iff.2 sound.loose

/-- Storing the right heights at a node makes the tree below it sound. -/
theorem Loose.sound
    {map map' : LinkMap} {parent : Option Address} {address : Address}
    {left right : BinaryTree Address}
    (loose : Loose map parent address left right)
    (fresh : address ∉ inorder left ∧ address ∉ inorder right)
    (here : map' address =
      { map address with
        leftHeight := left.height
        rightHeight := right.height })
    (same : ∀ other ≠ address, map' other = map other) :
    Sound map' parent (.node address left right) := by
  refine ⟨?_, loose.leftSound.congr ?_, loose.rightSound.congr ?_⟩
  · simp only [here, loose.parent_eq, loose.left_eq, loose.right_eq]
  · exact fun other member => same other fun equal => fresh.1 (equal ▸ member)
  · exact fun other member => same other fun equal => fresh.2 (equal ▸ member)

/-- The node which a path enters first, with the subtree below it. -/
theorem SoundPath.looseOn
    {map : LinkMap} {tree : BinaryTree Address} {path : Path Address}
    {frame : Frame Address}
    (sound : SoundPath map (root tree) (frame :: path))
    (below : Sound map (some frame.label) tree) :
    LooseOn map (parentOf path) frame.label frame.isLeft tree frame.sibling ∧
      SoundPath map (some frame.label) path := by
  obtain ⟨parent, child, siblingRoot, sibling, above⟩ := sound
  exact ⟨⟨parent, child, siblingRoot, below, sibling⟩, above⟩

/-- The path to a subtree of a node. -/
theorem LooseOn.soundPath
    {map : LinkMap} {path : Path Address} {address : Address} {isLeft : Bool}
    {near far : BinaryTree Address}
    (loose : LooseOn map (parentOf path) address isLeft near far)
    (above : SoundPath map (some address) path) :
    SoundPath map (root near) (⟨isLeft, address, far⟩ :: path) :=
  ⟨loose.parent_eq, loose.near_eq, loose.far_eq, loose.farSound, above⟩

/-- A subtree and its path store the whole tree. -/
theorem Sound.plug
    {map : LinkMap} {path : Path Address} {tree : BinaryTree Address}
    (sound : Sound map none (AvlTree.plug path tree)) :
    Sound map (parentOf path) tree ∧ SoundPath map (root tree) path := by
  induction path generalizing tree with
  | nil => exact ⟨sound, trivial⟩
  | cons frame path ih =>
      obtain ⟨here, above⟩ := ih sound
      rw [Frame.fill, root_nodeOn] at above
      exact ⟨here.looseOn.nearSound, here.looseOn.soundPath above⟩

/-- The root of a tree lies on every path that is not empty. -/
theorem root_plug (frame : Frame Address) (path : Path Address) (tree : BinaryTree Address) :
    ∃ address ∈ labels (frame :: path), root (AvlTree.plug (frame :: path) tree) = some address := by
  induction path generalizing frame tree with
  | nil => exact ⟨frame.label, mem_labels_cons.2 (.inl rfl), root_nodeOn ..⟩
  | cons outer path ih =>
      obtain ⟨address, member, isRoot⟩ := ih outer (frame.fill tree)
      exact ⟨address, mem_labels_cons.2 (.inr (.inr member)), isRoot⟩

theorem exists_root_plug (path : Path Address) (label : Address) (left right : BinaryTree Address) :
    ∃ address, root (AvlTree.plug path (.node label left right)) = some address := by
  cases path with
  | nil => exact ⟨label, rfl⟩
  | cons frame path =>
      obtain ⟨address, -, isRoot⟩ := root_plug frame path (.node label left right)
      exact ⟨address, isRoot⟩

/-! ## Unlinking, renaming -/

/--
Putting a subtree of a child in the place of that child changes the links of
the node above it and of the root of the subtree.
-/
theorem LooseOn.unlink
    {map map' : LinkMap} {path : Path Address} {label out : Address} {isLeft : Bool}
    {near far below : BinaryTree Address}
    (loose : LooseOn map (parentOf path) label isLeft near far)
    (above : SoundPath map (some label) path) (belowSound : Sound map (some out) below)
    (nodup : (inorder (plug (⟨isLeft, label, far⟩ :: path) below)).Nodup)
    (here : map' label = (map label).setChild isLeft (root below))
    (moved : ∀ address, root below = some address →
      map' address = { map address with parent := some label })
    (same : ∀ address ∈ inorder (plug (⟨isLeft, label, far⟩ :: path) below), address ≠ label →
      root below ≠ some address → map' address = map address) :
    LooseOn map' (parentOf path) label isLeft below far ∧ SoundPath map' (some label) path := by
  obtain ⟨labelsNodup, belowNodup, apart⟩ := nodup_inorder_plug_iff.1 nodup
  obtain ⟨freshFar, freshPath⟩ := nodup_labels_cons labelsNodup
  have notRoot : ∀ address ∈ labels (⟨isLeft, label, far⟩ :: path), root below ≠ some address :=
    fun address member isRoot => apart address member (root_mem_inorder isRoot)
  have sameOn : ∀ address ∈ labels (⟨isLeft, label, far⟩ :: path), address ≠ label →
      map' address = map address := fun address member differs =>
    same address (mem_inorder_plug.2 (.inl member)) differs (notRoot address member)
  refine ⟨⟨?_, ?_, ?_, belowSound.reparent belowNodup ?_ moved, ?_⟩, ?_⟩
  · rw [here, Links.setChild_parent, loose.parent_eq]
  · rw [here, Links.child_setChild_same]
  · rw [here, Links.child_setChild_other, loose.far_eq]
  · intro address member notRoot
    refine same address (mem_inorder_plug.2 (.inr member)) ?_ notRoot
    rintro rfl
    exact apart address (mem_labels_cons.2 (.inl rfl)) member
  · refine loose.farSound.congr fun address member => ?_
    refine sameOn address (mem_labels_cons.2 (.inr (.inl member))) ?_
    rintro rfl
    exact freshFar member
  · refine above.congr fun address member => ?_
    refine sameOn address (mem_labels_cons.2 (.inr (.inr member))) ?_
    rintro rfl
    exact freshPath member

theorem Sound.parent_of_child
    {map : LinkMap} {parent : Option Address} {tree : BinaryTree Address}
    (sound : Sound map parent tree) {address child : Address} (member : address ∈ inorder tree)
    (isChild : (map address).left = some child ∨ (map address).right = some child) :
    (map child).parent = some address := by
  induction tree generalizing parent with
  | nil => simp at member
  | node label left right leftIH rightIH =>
      obtain ⟨here, leftSound, rightSound⟩ := sound
      have ofRoot : ∀ tree, Sound map (some label) tree → root tree = some child →
          (map child).parent = some label := by
        intro tree sound isRoot
        cases tree with
        | nil => simp at isRoot
        | node root' _ _ =>
            obtain rfl := Option.some.inj isRoot
            rw [sound.1]
      simp only [inorder_node, List.mem_append, List.mem_cons] at member
      rcases member with inLeft | rfl | inRight
      · exact leftIH leftSound inLeft
      · rw [here] at isChild
        exact isChild.elim (ofRoot left leftSound) (ofRoot right rightSound)
      · exact rightIH rightSound inRight

theorem Sound.child_of_parent
    {map : LinkMap} {parent : Option Address} {tree : BinaryTree Address}
    (sound : Sound map parent tree) {address above : Address} (member : address ∈ inorder tree)
    (isParent : (map address).parent = some above) :
    parent = some above ∧ root tree = some address ∨
      (map above).left = some address ∨ (map above).right = some address := by
  induction tree generalizing parent with
  | nil => simp at member
  | node label left right leftIH rightIH =>
      obtain ⟨here, leftSound, rightSound⟩ := sound
      simp only [inorder_node, List.mem_append, List.mem_cons] at member
      rcases member with inLeft | rfl | inRight
      · rcases leftIH leftSound inLeft with ⟨isLabel, isRoot⟩ | child
        · obtain rfl := Option.some.inj isLabel
          exact .inr (.inl (by rw [here, isRoot]))
        · exact .inr child
      · rw [here] at isParent
        exact .inl ⟨isParent, rfl⟩
      · rcases rightIH rightSound inRight with ⟨isLabel, isRoot⟩ | child
        · obtain rfl := Option.some.inj isLabel
          exact .inr (.inr (by rw [here, isRoot]))
        · exact .inr child

/-- Rename the addresses that links point to. -/
def Links.rename (rename : Address → Address) (links : Links) : Links :=
  { links with
    parent := links.parent.map rename
    left := links.left.map rename
    right := links.right.map rename }

theorem root_map (rename : Address → Address) (tree : BinaryTree Address) :
    root (tree.map rename) = (root tree).map rename := by
  cases tree <;> rfl

/-- Moving the nodes of a tree to other addresses. -/
theorem Sound.rename
    {map map' : LinkMap} {rename : Address → Address} {parent : Option Address}
    {tree : BinaryTree Address} (sound : Sound map parent tree)
    (renamed : ∀ address ∈ inorder tree, map' (rename address) = (map address).rename rename) :
    Sound map' (parent.map rename) (tree.map rename) := by
  induction tree generalizing parent with
  | nil => trivial
  | node label left right leftIH rightIH =>
      obtain ⟨here, leftSound, rightSound⟩ := sound
      refine ⟨?_, leftIH leftSound fun address member => renamed address (by simp [member]),
        rightIH rightSound fun address member => renamed address (by simp [member])⟩
      rw [renamed label (by simp), here]
      simp [Links.rename, root_map, height_map]

/-! ## The root of a rebalanced path -/

/-- Rebalancing a node lifts a child only from the side that is higher by two. -/
theorem root_rebalance (isLeft : Bool) (label : Address) {near far : BinaryTree Address}
    (low : near.height ≤ far.height + 1) :
    ∃ address, root (rebalance (nodeOn isLeft label near far)) = some address ∧
      if near.height + 1 < far.height then address ∈ inorder far else address = label := by
  by_cases high : near.height + 1 < far.height
  · simp only [if_pos high]
    rw [← nodeOn_not]
    obtain ⟨child, outer, between, rfl⟩ :
        ∃ child outer between, far = nodeOn (!isLeft) child outer between := by
      rcases far with _ | ⟨child, first, second⟩
      · simp at high
      · cases isLeft with
        | true => exact ⟨child, second, first, rfl⟩
        | false => exact ⟨child, first, second, rfl⟩
    by_cases leans : outer.height < between.height
    · obtain ⟨grandchild, first, second, rfl⟩ :
          ∃ grandchild first second, between = nodeOn (!(!isLeft)) grandchild second first := by
        rcases between with _ | ⟨grandchild, first, second⟩
        · simp at leans
        · cases isLeft with
          | true => exact ⟨grandchild, second, first, rfl⟩
          | false => exact ⟨grandchild, first, second, rfl⟩
      rw [rebalance_inner high leans, root_nodeOn]
      exact ⟨grandchild, rfl, by simp [mem_inorder_nodeOn]⟩
    · rw [rebalance_outer high (by omega), root_nodeOn]
      exact ⟨child, rfl, by simp [mem_inorder_nodeOn]⟩
  · refine ⟨label, ?_, if_neg high ▸ rfl⟩
    cases isLeft with
    | true =>
        simp only [nodeOn, if_true]
        rw [rebalance_level low (by omega)]
        rfl
    | false =>
        simp only [nodeOn, Bool.false_eq_true, if_false]
        rw [rebalance_level (by omega) low]
        rfl

/-- A subtree that has not grown does not become the root of the path above it. -/
theorem root_climb {path : Path Address} {tree : BinaryTree Address} {height : Nat}
    (some' : path ≠ []) (balanced : Balanced tree) (pathBalanced : BalancedPath path height)
    (low : tree.height ≤ height) (shrunk : height ≤ tree.height + 1) :
    ∃ address ∈ labels path, root (climb path tree) = some address := by
  induction path generalizing tree height with
  | nil => exact absurd rfl some'
  | cons frame path ih =>
      obtain ⟨slope, siblingSlope, siblingBalanced, rest⟩ := pathBalanced
      obtain ⟨stepBalanced, -, stepShrunk⟩ :=
        rebalance_fill frame height balanced siblingBalanced slope siblingSlope (by omega) shrunk
      by_cases last : path = []
      · subst last
        obtain ⟨address, isRoot, isFrame⟩ := root_rebalance frame.isLeft frame.label
          (show tree.height ≤ frame.sibling.height + 1 by omega)
        refine ⟨address, mem_labels_cons.2 ?_, isRoot⟩
        split_ifs at isFrame
        · exact .inr (.inl isFrame)
        · exact .inl isFrame
      · obtain ⟨-, -, bound, -⟩ := balanced_rebalance_nodeOn frame.isLeft frame.label balanced
          siblingBalanced (by omega) (by omega)
        obtain ⟨address, member, isRoot⟩ := ih last stepBalanced rest
          (by rw [Frame.fill]; omega) stepShrunk
        exact ⟨address, mem_labels_cons.2 (.inr (.inr member)), isRoot⟩

/-! ## Trees of any shape -/

/-- The links to the children store the shape; the others are open. -/
def Children (map : LinkMap) : BinaryTree Address → Prop
  | .nil => True
  | .node address left right =>
      (map address).left = root left ∧ (map address).right = root right ∧
        Children map left ∧ Children map right

theorem Children.congr {map map' : LinkMap} {tree : BinaryTree Address}
    (children : Children map tree)
    (same : ∀ address, (map' address).left = (map address).left ∧
      (map' address).right = (map address).right) : Children map' tree := by
  induction tree with
  | nil => trivial
  | node address left right leftIH rightIH =>
      obtain ⟨leftEq, rightEq, leftChildren, rightChildren⟩ := children
      exact ⟨(same address).1.trans leftEq, (same address).2.trans rightEq,
        leftIH leftChildren, rightIH rightChildren⟩

/-- Parent links and heights can be added to a tree which only has its children. -/
theorem Children.exists_sound {map : LinkMap} {tree : BinaryTree Address}
    (children : Children map tree) (nodup : (inorder tree).Nodup) (parent : Option Address) :
    ∃ map', Sound map' parent tree ∧
      (∀ address, (map' address).left = (map address).left ∧
        (map' address).right = (map address).right) ∧
      ∀ address ∉ inorder tree, map' address = map address := by
  induction tree generalizing map parent with
  | nil => exact ⟨map, trivial, fun _ => ⟨rfl, rfl⟩, fun _ _ => rfl⟩
  | node label left right leftIH rightIH =>
      obtain ⟨leftEq, rightEq, leftChildren, rightChildren⟩ := children
      simp only [inorder_node, List.nodup_append, List.nodup_cons, List.mem_cons] at nodup
      obtain ⟨leftNodup, ⟨freshRight, rightNodup⟩, apart⟩ := nodup
      have freshLeft : label ∉ inorder left := fun member =>
        apart label member label (.inl rfl) rfl
      obtain ⟨map₁, leftSound, same₁, frame₁⟩ := leftIH leftChildren leftNodup (some label)
      obtain ⟨map₂, rightSound, same₂, frame₂⟩ :=
        rightIH (rightChildren.congr same₁) rightNodup (some label)
      have links : (map₂ label).left = root left ∧ (map₂ label).right = root right :=
        ⟨((same₂ label).1.trans (same₁ label).1).trans leftEq,
          ((same₂ label).2.trans (same₁ label).2).trans rightEq⟩
      refine ⟨map₂.modify label fun node =>
        { node with leftHeight := left.height, rightHeight := right.height, parent := parent },
        ⟨?_, leftSound.congr fun address member => ?_, rightSound.congr fun address member => ?_⟩,
        fun address => ?_, fun address absent => ?_⟩
      · simp [links]
      · have differs : address ≠ label := fun same => freshLeft (same ▸ member)
        have outside : address ∉ inorder right := fun inRight =>
          apart address member address (.inr inRight) rfl
        simp [LinkMap.modify_apply, differs, frame₂ address outside]
      · have differs : address ≠ label := fun same => freshRight (same ▸ member)
        simp [LinkMap.modify_apply, differs]
      · rw [LinkMap.modify_apply]
        split
        · next same =>
            subst same
            exact ⟨(same₂ address).1.trans (same₁ address).1,
              (same₂ address).2.trans (same₁ address).2⟩
        · exact ⟨(same₂ address).1.trans (same₁ address).1,
            (same₂ address).2.trans (same₁ address).2⟩
      · simp only [inorder_node, List.mem_append, List.mem_cons, not_or] at absent
        obtain ⟨notLeft, differs, notRight⟩ := absent
        simp [LinkMap.modify_apply, differs, frame₂ address notRight, frame₁ address notLeft]

end Mvtx.Lib.LinkedTree
