import Mvtx.Lock.NodeOrdered

/-!
# Removal from a search tree

`remove` is not called by the lock manager.  It takes a node out of its tree:
a node without a left child gives its place to its right child, and any other
node to the last node of its left subtree.
-/

namespace Mvtx.Lock

open Lib.AvlTree Lib.LinkedTree

namespace AVLTreeLockNode

/-- The last node below a node, following the right children. -/
def lastRight : Nat → NodeHeap → Address → Exec Address
  | 0, _, _ => .error .divergence
  | fuel + 1, heap, newLock =>
      match (heap.links newLock).right with
      | none => .ok newLock
      | some right => lastRight fuel heap right

/-- Let a parent point to something else, or to nothing, in the place of a child. -/
def turnChild (links : LinkMap) (parent this : Address) (child : Option Address) : LinkMap :=
  if (links parent).left = some this then
    links.modify parent ({ · with left := child })
  else
    links.modify parent ({ · with right := child })

/-- Give the links of a node to another one, and turn what points to the former. -/
def takeOver (links : LinkMap) (this newLock : Address) : LinkMap :=
  let links := links.modify newLock fun _ => links this
  let links := replaceChild links (links this).parent this newLock
  let links := setParent links (links this).left newLock
  setParent links (links this).right newLock

/-- Give the place of a node to its left child, which has no right child. -/
def lift (links : LinkMap) (parent this newLock : Address) : LinkMap :=
  let links := turnChild links parent this (some newLock)
  let links := links.modify newLock ({ · with parent := (links this).parent })
  let links := setParent links (links this).right newLock
  links.modify newLock ({ · with right := (links this).right })

/-- `remove` up to its last line: take a node out of its tree and rebalance. -/
def detach (heap : NodeHeap) (this : Address) : Exec NodeHeap :=
  match (heap.links this).left with
  | some left => do
      let newLock ← lastRight heap.fuel heap left
      if (heap.links newLock).parent = some this then do
        -- Here the parent is used without a test for null.
        let parent ← deref (heap.links this).parent
        balance heap.fuel { heap with links := lift heap.links parent this newLock } newLock
      else do
        let parent ← deref (heap.links newLock).parent
        let links := setParent heap.links (heap.links newLock).left parent
        let links := links.modify parent ({ · with right := (links newLock).left })
        let heap ← balance heap.fuel { heap with links := links } parent
        return { heap with links := takeOver heap.links this newLock }
  | none => do
      let links :=
        match (heap.links this).parent, (heap.links this).right with
        | none, _ => heap.links
        | some parent, none => turnChild heap.links parent this none
        | some parent, some right =>
            (turnChild heap.links parent this (some right)).modify right
              ({ · with parent := some parent })
      -- Here, too.
      let parent ← deref (links this).parent
      balance heap.fuel { heap with links := links } parent

/-- Remove a node from its tree; the result is what `getRoot` finds from the node. -/
def remove (heap : NodeHeap) (this : Address) : Exec (NodeHeap × Address) := do
  let heap ← detach heap this
  let root ← getRoot heap.fuel heap this
  return (heap, root)

variable {heap : NodeHeap} {links : LinkMap} {this newLock rootPtr : Address}
  {tree : BinaryTree Address} {path : Path Address} {left right : BinaryTree Address}

theorem turnChild_apply (links : LinkMap) (parent this : Address) (child : Option Address)
    (other : Address) :
    turnChild links parent this child other =
      if other = parent then
        if (links parent).left = some this then { links parent with left := child }
        else { links parent with right := child }
      else links other := by
  unfold turnChild
  split_ifs <;> simp_all [LinkMap.modify_apply]

/-- `turnChild` above a node of a tree. -/
theorem turnChild_eq {frame : Frame Address}
    (above : SoundPath links (some this) (frame :: path)) (fresh : this ∉ inorder frame.sibling)
    (child : Option Address) :
    turnChild links frame.label this child frame.label =
      (links frame.label).setChild frame.isLeft child := by
  obtain ⟨-, hole, siblingRoot, -, -⟩ := above
  rw [turnChild_apply, if_pos rfl]
  cases side : frame.isLeft with
  | true =>
      simp only [side, Links.child, if_true] at hole
      simp [hole, Links.setChild]
  | false =>
      simp only [side, Links.child, Bool.not_false, if_true] at siblingRoot
      have notLeft : (links frame.label).left ≠ some this := by
        rw [siblingRoot]
        exact fun isRoot => fresh (root_mem_inorder isRoot)
      simp [notLeft, Links.setChild]

/-! ## Looking up the root from a node that is out of the tree -/

theorem getRoot_of_parent {above : Address} (stored : Stores heap rootPtr tree)
    (member : above ∈ inorder tree) (isParent : (heap.links this).parent = some above)
    (outside : this ∉ inorder tree) (allocated : this < heap.size) :
    getRoot heap.fuel heap this = .ok rootPtr := by
  have short : (this :: inorder tree).length ≤ heap.size :=
    length_le_of_nodup_of_lt (List.nodup_cons.2 ⟨outside, stored.nodup⟩)
      (List.forall_mem_cons.2 ⟨allocated, stored.allocated⟩)
  obtain ⟨path, left, right, rfl⟩ := exists_path member
  have bound := length_le_length_labels path
  have inside : (labels path).length < (inorder (plug path (.node above left right))).length := by
    simp only [inorder_plug, labels, List.length_append, inorder_node, List.length_cons]
    omega
  simp only [List.length_cons] at short
  obtain ⟨found, isRoot, returned⟩ :=
    getRoot_eq stored.sound (show path.length < heap.size by omega)
  obtain rfl := Option.some.inj (stored.isRoot.symm.trans isRoot)
  rw [NodeHeap.fuel, getRoot, isParent]
  exact returned

/-! ## A node without a left child -/

/-- A node below another one, without a left child, gives its place to its right child. -/
theorem detach_nil {frame : Frame Address}
    (stored : Stores heap rootPtr (plug (frame :: path) (.node this .nil right))) :
    ∃ links newRoot, detach heap this = .ok { heap with links := links } ∧
      Stores { heap with links := links } newRoot (climb (frame :: path) right) ∧
      (links this).parent = some frame.label := by
  obtain ⟨here, above⟩ := stored.sound.plug
  obtain ⟨thisLinks, -, rightSound⟩ := here
  obtain ⟨loose, abovePath⟩ := above.looseOn stored.sound.plug.1
  obtain ⟨thisBalanced, pathBalanced⟩ := (balanced_plug_iff _ _).1 stored.balanced
  have permuted : (inorder (plug (frame :: path) (.node this .nil right))).Perm
      (this :: inorder (plug (frame :: path) right)) := by
    simp only [inorder_plug, inorder_node, inorder_nil, List.nil_append, List.append_assoc,
      List.cons_append]
    exact List.perm_middle
  obtain ⟨fresh, nodup⟩ := List.nodup_cons.1 (permuted.nodup_iff.1 stored.nodup)
  have allocated : ∀ address ∈ inorder (plug (frame :: path) right), address < heap.size :=
    fun address member => stored.allocated address
      (permuted.mem_iff.2 (List.mem_cons_of_mem this member))
  simp only [mem_inorder_plug, mem_labels_cons, not_or] at fresh
  obtain ⟨⟨notLabel, notSibling, notPath⟩, notRight⟩ := fresh
  obtain ⟨-, -, apart⟩ := nodup_inorder_plug_iff.1 nodup
  have labelNotRight : frame.label ∉ inorder right := apart _ (mem_labels_cons.2 (.inl rfl))
  have turned := turnChild_eq above notSibling (root right)
  obtain ⟨map, links⟩ : ∃ map, map = setParent
      (turnChild heap.links frame.label this (root right)) (root right) frame.label := ⟨_, rfl⟩
  have apply : ∀ other, map other =
      if root right = some other then
        { turnChild heap.links frame.label this (root right) other with
          parent := some frame.label }
      else turnChild heap.links frame.label this (root right) other := by
    rw [links]
    exact setParent_apply _ _ _
  have elsewhere : ∀ other, other ≠ frame.label →
      turnChild heap.links frame.label this (root right) other = heap.links other :=
    fun other differs => (turnChild_apply ..).trans (if_neg differs)
  have notRoot : ∀ other, other ∉ inorder right → root right ≠ some other :=
    fun other outside isRoot => outside (root_mem_inorder isRoot)
  obtain ⟨unlinked, abovePath'⟩ := loose.unlink abovePath rightSound nodup
    (show map frame.label = _ by rw [apply, if_neg (notRoot _ labelNotRight), turned])
    (fun address isRoot => by
      rw [apply, if_pos isRoot, elsewhere]
      rintro rfl
      exact labelNotRight (root_mem_inorder isRoot))
    (fun address _ differs notRoot => by rw [apply, if_neg notRoot, elsewhere _ differs])
  have mapThis : map this = heap.links this := by
    rw [apply, if_neg (notRoot _ notRight), elsewhere _ notLabel]
  have length := length_path_lt_fuel nodup allocated
  obtain ⟨links', balanced, sound, outside⟩ := balance_climbOn
    (show LooseOn ({ heap with links := map } : NodeHeap).links _ _ _ _ _ from unlinked)
    abovePath' nodup thisBalanced.2.2.2 pathBalanced (by simp only [BinaryTree.height]; omega)
    (by simp [BinaryTree.height])
    (show path.length < heap.fuel by simp only [List.length_cons] at length; omega)
  obtain ⟨newRoot, stored'⟩ := stores_climb sound thisBalanced.2.2.2 pathBalanced
    (by simp only [BinaryTree.height]; omega) (by simp [BinaryTree.height]) nodup allocated
    (List.ne_nil_of_mem (mem_inorder_plug.2 (.inl (mem_labels_cons.2 (.inl rfl)))))
  refine ⟨links', newRoot, ?_, stored', ?_⟩
  · have parentEq : (map this).parent = some frame.label := by rw [mapThis, thisLinks]; rfl
    have balanced' : balance heap.fuel { heap with links := map } frame.label =
        .ok { heap with links := links' } := balanced
    cases isRoot : root right with
    | none =>
        rw [isRoot] at links
        simp only [setParent] at links
        simp only [detach, thisLinks, root_nil, parentOf_cons, isRoot, ← links, parentEq, deref,
          bind, Except.bind, balanced']
    | some child =>
        rw [isRoot] at links
        simp only [setParent] at links
        simp only [detach, thisLinks, root_nil, parentOf_cons, isRoot, ← links, parentEq, deref,
          bind, Except.bind, balanced']
  · rw [outside this fun member => ?_]
    · show (map this).parent = some frame.label
      rw [mapThis, thisLinks]
      rfl
    · rw [mem_inorder_plug, mem_labels_cons] at member
      tauto

/-! ## A node whose left child has no right child -/

theorem lift_apply {parent : Address} (notThis : newLock ≠ this) (parentNe : parent ≠ this)
    (notParent : newLock ≠ parent) (rightThis : (links this).right ≠ some this)
    (rightNew : (links this).right ≠ some newLock) (rightParent : (links this).right ≠ some parent)
    (other : Address) :
    lift links parent this newLock other =
      if other = newLock then
        { links newLock with parent := (links this).parent, right := (links this).right }
      else if (links this).right = some other then { links other with parent := some newLock }
      else turnChild links parent this (some newLock) other := by
  simp only [lift, LinkMap.modify_apply, setParent_apply, turnChild_apply, notThis.symm,
    parentNe.symm, notParent, if_false, if_true]
  split_ifs <;> simp_all

/-- A node below another one, whose left child has no right child, gives its place to that. -/
theorem detach_near {frame : Frame Address} {below : BinaryTree Address}
    (stored : Stores heap rootPtr
      (plug (frame :: path) (.node this (.node newLock below .nil) right))) :
    ∃ links newRoot, detach heap this = .ok { heap with links := links } ∧
      Stores { heap with links := links } newRoot
        (climb (frame :: path) (rebalance (.node newLock below right))) ∧
      (links this).parent = some frame.label := by
  obtain ⟨here, above⟩ := stored.sound.plug
  obtain ⟨thisLinks, ⟨newLinks, belowSound, -⟩, rightSound⟩ := here
  obtain ⟨thisBalanced, pathBalanced⟩ := (balanced_plug_iff _ _).1 stored.balanced
  obtain ⟨leftLow, rightLow, ⟨belowLow, nilLow, belowBalanced, -⟩, rightBalanced⟩ := thisBalanced
  simp only [BinaryTree.height] at leftLow rightLow belowLow nilLow
  have permuted : (inorder (plug (frame :: path) (.node this (.node newLock below .nil) right))).Perm
      (this :: inorder (plug (frame :: path) (.node newLock below right))) := by
    simp only [inorder_plug, inorder_node, inorder_nil, List.nil_append, List.append_assoc,
      List.cons_append]
    refine List.Perm.trans ?_ List.perm_middle
    refine List.Perm.append_left _ ?_
    refine List.Perm.trans ?_ List.perm_middle
    exact List.Perm.append_left _ (List.Perm.swap _ _ _)
  obtain ⟨fresh, nodup⟩ := List.nodup_cons.1 (permuted.nodup_iff.1 stored.nodup)
  have allocated : ∀ address ∈ inorder (plug (frame :: path) (.node newLock below right)),
      address < heap.size :=
    fun address member => stored.allocated address
      (permuted.mem_iff.2 (List.mem_cons_of_mem this member))
  obtain ⟨labelsNodup, treeNodup, apart⟩ := nodup_inorder_plug_iff.1 nodup
  simp only [mem_inorder_plug, mem_labels_cons, inorder_node, List.mem_append, List.mem_cons,
    not_or] at fresh
  obtain ⟨⟨notLabel, notSibling, notPath⟩, notBelow, notNew, notRight⟩ := fresh
  simp only [inorder_node, List.nodup_append, List.nodup_cons, List.mem_cons, List.mem_append]
    at treeNodup apart
  obtain ⟨belowNodup, ⟨newRight, rightNodup⟩, across⟩ := treeNodup
  have newBelow : newLock ∉ inorder below := fun member => across newLock member newLock (.inl rfl) rfl
  have newLabels : newLock ∉ labels (frame :: path) := fun member => by
    have := apart newLock member
    tauto
  have notRoot : ∀ other, other ∉ inorder right → root right ≠ some other :=
    fun other outside isRoot => outside (root_mem_inorder isRoot)
  have labelMember : frame.label ∈ labels (frame :: path) := mem_labels_cons.2 (.inl rfl)
  have labelRight : frame.label ∉ inorder right := fun member => by
    have := apart frame.label labelMember
    tauto
  have apply := @lift_apply heap.links this newLock frame.label (Ne.symm notNew) (Ne.symm notLabel)
    (fun same => newLabels (same ▸ labelMember))
    (by rw [thisLinks]; exact notRoot _ notRight) (by rw [thisLinks]; exact notRoot _ newRight)
    (by rw [thisLinks]; exact notRoot _ labelRight)
  simp only [thisLinks, newLinks, parentOf_cons] at apply
  have same : ∀ other, other ≠ newLock → other ≠ frame.label → root right ≠ some other →
      lift heap.links frame.label this newLock other = heap.links other := by
    intro other notNew notLabel notRight
    rw [apply, if_neg notNew, if_neg notRight, turnChild_apply, if_neg notLabel]
  have loose : Loose (lift heap.links frame.label this newLock) (parentOf (frame :: path)) newLock
      below right := by
    constructor
    · rw [apply, if_pos rfl, parentOf_cons]
    · rw [apply, if_pos rfl]
    · rw [apply, if_pos rfl]
    · refine belowSound.congr fun address member => same address ?_ ?_ (notRoot _ fun inRight => ?_)
      · rintro rfl
        exact newBelow member
      · rintro rfl
        exact apart _ labelMember (.inl member)
      · exact across address member address (.inr inRight) rfl
    · refine rightSound.reparent rightNodup (fun address member notRoot => same address ?_ ?_ notRoot)
        fun address isRoot => ?_
      · rintro rfl
        exact newRight member
      · rintro rfl
        exact labelRight member
      · have member := root_mem_inorder isRoot
        have notLabel' : address ≠ frame.label := by
          rintro rfl
          exact labelRight member
        rw [apply, if_neg, if_pos isRoot]
        rintro rfl
        exact newRight member
  have abovePath : SoundPath (lift heap.links frame.label this newLock) (some newLock)
      (frame :: path) := by
    refine above.replace labelsNodup (by simp [mem_labels_cons, notLabel, notSibling, notPath])
      (fun address member notParent => same address ?_ ?_ (notRoot _ fun inRight => ?_))
      fun address isParent => ?_
    · rintro rfl
      exact newLabels member
    · rintro rfl
      exact notParent rfl
    · exact apart address member (.inr (.inr inRight))
    · obtain rfl := Option.some.inj isParent
      rw [apply, if_neg, if_neg (notRoot _ labelRight), turnChild_apply, if_pos rfl]
      rintro rfl
      exact newLabels labelMember
  obtain ⟨stepBalanced, stepLow, stepHigh, stepLevel⟩ :=
    balanced_rebalance newLock belowBalanced rightBalanced (by omega) (by omega)
  have grown : (rebalance (.node newLock below right)).height ≤
      (BinaryTree.node this (.node newLock below .nil) right).height + 1 := by
    simp only [BinaryTree.height]
    omega
  have shrunk : (BinaryTree.node this (.node newLock below .nil) right).height ≤
      (rebalance (.node newLock below right)).height + 1 := by
    simp only [BinaryTree.height]
    by_cases level : right.height ≤ below.height + 1
    · have height := stepLevel (by omega) level
      omega
    · omega
  obtain ⟨links, balanced, sound, outside⟩ := balance_climb
    (show Loose ({ heap with links := lift heap.links frame.label this newLock } : NodeHeap).links
      _ _ _ _ from loose) abovePath nodup belowBalanced rightBalanced (by omega) (by omega)
    pathBalanced grown shrunk (length_path_lt_fuel nodup allocated)
  have order : inorder (plug (frame :: path) (rebalance (.node newLock below right))) =
      inorder (plug (frame :: path) (.node newLock below right)) := by
    rw [inorder_plug, inorder_rebalance, ← inorder_plug]
  obtain ⟨newRoot, stored'⟩ := stores_climb sound stepBalanced pathBalanced grown shrunk
    (order ▸ nodup) (order ▸ allocated)
    (List.ne_nil_of_mem (mem_inorder_plug.2 (.inl labelMember)))
  refine ⟨links, newRoot, ?_, stored', ?_⟩
  · have found : lastRight heap.fuel heap newLock = .ok newLock := by
      simp [NodeHeap.fuel, lastRight, newLinks]
    have balanced' : balance heap.fuel
        { heap with links := lift heap.links frame.label this newLock } newLock =
        .ok { heap with links := links } := balanced
    simp only [detach, thisLinks, root_node, found, newLinks, bind, Except.bind, if_true,
      parentOf_cons, deref, balanced']
  · rw [outside this fun member => ?_]
    · show (lift heap.links frame.label this newLock this).parent = some frame.label
      rw [same this notNew notLabel (notRoot _ notRight), thisLinks]
      rfl
    · simp only [mem_inorder_plug, mem_labels_cons, inorder_node, List.mem_append,
        List.mem_cons] at member
      tauto

/-! ## A node that is replaced by the last one on its left -/

theorem lastRight_eq {parent : Option Address} {spine : Path Address} {start : Address}
    {below : BinaryTree Address} {fuel : Nat} (turns : TurnsRight spine)
    (sound : Sound heap.links parent (plug spine (.node newLock below .nil)))
    (isRoot : root (plug spine (.node newLock below .nil)) = some start)
    (enough : spine.length < fuel) : lastRight fuel heap start = .ok newLock := by
  obtain ⟨fuel, rfl⟩ := Nat.exists_eq_succ_of_ne_zero (Nat.ne_of_gt (Nat.zero_lt_of_lt enough))
  induction spine using List.reverseRecOn generalizing parent start fuel with
  | nil =>
      obtain rfl := Option.some.inj isRoot
      have here : heap.links newLock = _ := sound.1
      simp [lastRight, here]
  | append_singleton spine frame ih =>
      obtain ⟨isLeft, label, sibling⟩ := frame
      obtain rfl : isLeft = false := turns ⟨isLeft, label, sibling⟩ (by simp)
      rw [plug_append] at sound isRoot
      obtain rfl : label = start := Option.some.inj isRoot
      obtain ⟨here, -, inner⟩ :
          Sound heap.links parent (.node label sibling (plug spine (.node newLock below .nil))) :=
        sound
      obtain ⟨next, nextRoot⟩ := exists_root_plug spine newLock below .nil
      simp only [List.length_append, List.length_singleton] at enough
      obtain ⟨fuel, rfl⟩ := Nat.exists_eq_succ_of_ne_zero (show fuel ≠ 0 by omega)
      simp only [lastRight, here, nextRoot]
      exact ih (fun other member => turns other (by simp [member])) inner nextRoot fuel (by omega)

/-- A node takes the place of another one in a tree. -/
theorem sound_takeOver (sound : Sound links none (plug path (.node this left right)))
    (nodup : (inorder (plug path (.node this left right))).Nodup)
    (fresh : newLock ∉ inorder (plug path (.node this left right))) :
    Sound (takeOver links this newLock) none
        ((plug path (.node this left right)).map fun address =>
          if address = this then newLock else address) ∧
      takeOver links this newLock this = links this := by
  obtain ⟨labelsNodup, treeNodup, apart⟩ := nodup_inorder_plug_iff.1 nodup
  have fresh' := fresh
  simp only [mem_inorder_plug, inorder_node, List.mem_append, List.mem_cons, not_or] at fresh'
  obtain ⟨newLabels, newLeft, newThis, newRight⟩ := fresh'
  simp only [inorder_node, List.nodup_append, List.nodup_cons, List.mem_cons, List.mem_append]
    at treeNodup apart
  obtain ⟨-, ⟨thisRight, -⟩, across⟩ := treeNodup
  have thisLeft : this ∉ inorder left := fun member => across this member this (.inl rfl) rfl
  have thisLabels : this ∉ labels path := fun member => apart this member (.inr (.inl rfl))
  have here : links this = _ := sound.plug.1.1
  have above : ∀ other, parentOf path = some other → other ∈ labels path := fun _ => parentOf_mem
  have atLeft : ∀ other, root left = some other → other ∈ inorder left := fun _ => root_mem_inorder
  have atRight : ∀ other, root right = some other → other ∈ inorder right :=
    fun _ => root_mem_inorder
  have apply : ∀ other, takeOver links this newLock other =
      if root right = some other ∨ root left = some other then
        { links other with parent := some newLock }
      else if parentOf path = some other then
        if (links other).left = some this then { links other with left := some newLock }
        else { links other with right := some newLock }
      else if other = newLock then links this
      else links other := by
    intro other
    have notAbove : parentOf path ≠ some this := fun same => thisLabels (above _ same)
    have notLeft : root left ≠ some this := fun same => thisLeft (atLeft _ same)
    have thisNew : this ≠ newLock := Ne.symm newThis
    simp only [takeOver, setParent_apply, replaceChild_apply, LinkMap.modify_apply, here, thisNew,
      notAbove, notLeft, if_false]
    have newAbove : parentOf path ≠ some newLock := fun same => newLabels (above _ same)
    have newLeft' : root left ≠ some newLock := fun same => newLeft (atLeft _ same)
    have newRight' : root right ≠ some newLock := fun same => newRight (atRight _ same)
    by_cases isNew : other = newLock
    · subst isNew
      simp [newAbove, newLeft', newRight']
    · by_cases isRight : root right = some other
      · have notLeft' : root left ≠ some other := fun same =>
          across other (atLeft _ same) other (.inr (atRight _ isRight)) rfl
        have notAbove' : parentOf path ≠ some other := fun same =>
          apart other (above _ same) (.inr (.inr (atRight _ isRight)))
        simp [isRight, notLeft', notAbove', isNew]
      · by_cases isLeft : root left = some other
        · have notAbove' : parentOf path ≠ some other := fun same =>
            apart other (above _ same) (.inl (atLeft _ isLeft))
          simp [isRight, isLeft, notAbove', isNew]
        · simp [isRight, isLeft, isNew]
  have newAbove : parentOf path ≠ some newLock := fun same => newLabels (above _ same)
  have newChild : ¬ (root right = some newLock ∨ root left = some newLock) := by
    rintro (same | same)
    · exact newRight (atRight _ same)
    · exact newLeft (atLeft _ same)
  have thisAbove : parentOf path ≠ some this := fun same => thisLabels (above _ same)
  have thisChild : ¬ (root right = some this ∨ root left = some this) := by
    rintro (same | same)
    · exact thisRight (atRight _ same)
    · exact thisLeft (atLeft _ same)
  have keeps : ∀ pointer : Option Address, pointer ≠ some this →
      pointer.map (fun address => if address = this then newLock else address) = pointer := by
    rintro (_ | address) differs
    · rfl
    · simpa using fun same => absurd (congrArg some same) differs
  have thisMember : this ∈ inorder (plug path (.node this left right)) :=
    mem_inorder_plug.2 (.inr (by simp))
  -- Only the node above and the children point to a node.
  have pointed : ∀ address ∈ inorder (plug path (.node this left right)),
      (links address).left = some this ∨ (links address).right = some this →
        parentOf path = some address := by
    intro address member points
    have isParent := sound.parent_of_child member points
    rw [here] at isParent
    exact isParent
  have hung : ∀ address ∈ inorder (plug path (.node this left right)),
      (links address).parent = some this ↔ root right = some address ∨ root left = some address := by
    intro address member
    constructor
    · intro isParent
      rcases sound.child_of_parent member isParent with ⟨absurd', -⟩ | isLeft | isRight
      · exact absurd absurd' (by simp)
      · exact .inr (by rwa [here] at isLeft)
      · exact .inl (by rwa [here] at isRight)
    · intro isChild
      refine sound.parent_of_child thisMember ?_
      rw [here]
      exact isChild.symm
  refine ⟨sound.rename fun address member => ?_, ?_⟩
  · by_cases isThis : address = this
    · subst isThis
      rw [if_pos rfl, apply, if_neg newChild, if_neg newAbove, if_pos rfl, here]
      simp only [Links.rename, keeps _ thisAbove, keeps _ fun same => thisChild (.inr same),
        keeps _ fun same => thisChild (.inl same)]
    · have notNew : address ≠ newLock := by
        rintro rfl
        exact fresh member
      rw [if_neg isThis, apply]
      by_cases isChild : root right = some address ∨ root left = some address
      · have notAbove : parentOf path ≠ some address := by
          rintro same
          rcases isChild with isRight | isLeft
          · exact apart address (above _ same) (.inr (.inr (atRight _ isRight)))
          · exact apart address (above _ same) (.inl (atLeft _ isLeft))
        have parentEq := (hung address member).2 isChild
        rw [if_pos isChild, Links.rename, parentEq,
          keeps _ fun same => notAbove (pointed address member (.inl same)),
          keeps _ fun same => notAbove (pointed address member (.inr same))]
        simp
      · have parentNe : (links address).parent ≠ some this := fun same =>
          isChild ((hung address member).1 same)
        rw [if_neg isChild]
        by_cases isAbove : parentOf path = some address
        · cases path with
          | nil => simp at isAbove
          | cons frame path =>
              obtain rfl := Option.some.inj isAbove
              obtain ⟨-, hole, siblingRoot, -, -⟩ := sound.plug.2
              have siblingNe : root frame.sibling ≠ some this := fun same =>
                thisLabels (mem_labels_cons.2 (.inr (.inl (root_mem_inorder same))))
              rw [if_pos isAbove, Links.rename, keeps _ parentNe]
              cases side : frame.isLeft with
              | true =>
                  simp only [side, Links.child, if_true, Bool.not_true, Bool.false_eq_true,
                    if_false, root_node] at hole siblingRoot
                  rw [if_pos hole]
                  simp [hole, siblingRoot, keeps _ siblingNe]
              | false =>
                  simp only [side, Links.child, if_true, Bool.not_false, Bool.false_eq_true,
                    if_false, root_node] at hole siblingRoot
                  rw [if_neg (siblingRoot ▸ siblingNe)]
                  simp [hole, siblingRoot, keeps _ siblingNe]
        · rw [if_neg isAbove, if_neg notNew, Links.rename, keeps _ parentNe,
            keeps _ fun same => isAbove (pointed address member (.inl same)),
            keeps _ fun same => isAbove (pointed address member (.inr same))]
  · rw [apply, if_neg thisChild, if_neg thisAbove, if_neg (Ne.symm newThis)]

/-- A node below which the last one on its left is not its child gives its place to that. -/
theorem detach_far {spine whole : Path Address} {last : Address}
    {sibling below : BinaryTree Address} (turns : TurnsRight spine)
    (wholeEq : whole = spine ++ ⟨true, this, right⟩ :: path)
    (stored : Stores heap rootPtr
      (plug (⟨false, last, sibling⟩ :: whole) (.node newLock below .nil))) :
    ∃ links newRoot newPath newLeft newRight,
      detach heap this = .ok { heap with links := links } ∧
      climb (⟨false, last, sibling⟩ :: whole) below = plug newPath (.node this newLeft newRight) ∧
      Stores { heap with links := links } newRoot
        ((plug newPath (.node this newLeft newRight)).map fun address =>
          if address = this then newLock else address) ∧
      (links this).parent = parentOf newPath := by
  obtain ⟨⟨newLinks, belowSound, -⟩, above⟩ := stored.sound.plug
  obtain ⟨loose, abovePath⟩ := above.looseOn stored.sound.plug.1
  obtain ⟨⟨-, -, belowBalanced, -⟩, pathBalanced⟩ := (balanced_plug_iff _ _).1 stored.balanced
  have permuted : (inorder (plug (⟨false, last, sibling⟩ :: whole) (.node newLock below .nil))).Perm
      (newLock :: inorder (plug (⟨false, last, sibling⟩ :: whole) below)) := by
    simp only [inorder_plug, inorder_node, inorder_nil, List.append_assoc, List.singleton_append]
    refine List.Perm.trans (List.Perm.append_left _ List.perm_middle) List.perm_middle
  obtain ⟨fresh, nodup⟩ := List.nodup_cons.1 (permuted.nodup_iff.1 stored.nodup)
  have allocated : ∀ address ∈ inorder (plug (⟨false, last, sibling⟩ :: whole) below),
      address < heap.size :=
    fun address member => stored.allocated address
      (permuted.mem_iff.2 (List.mem_cons_of_mem newLock member))
  obtain ⟨labelsNodup, -, apart⟩ := nodup_inorder_plug_iff.1 nodup
  obtain ⟨-, lastWhole⟩ := nodup_labels_cons labelsNodup
  have thisWhole : this ∈ labels whole := by
    rw [wholeEq, labels, before_append, after_append]
    simp [before, after]
  have lastNe : last ≠ this := by
    rintro rfl
    exact lastWhole thisWhole
  have lastBelow : root below ≠ some last := fun isRoot =>
    apart last (mem_labels_cons.2 (.inl rfl)) (root_mem_inorder isRoot)
  obtain ⟨map, mapEq⟩ : ∃ map, map = (setParent heap.links (root below) last).modify last
      ({ · with right := root below }) := ⟨_, rfl⟩
  have apply : ∀ other, map other =
      if other = last then { heap.links last with right := root below }
      else if root below = some other then { heap.links other with parent := some last }
      else heap.links other := by
    intro other
    rw [mapEq, LinkMap.modify_apply]
    simp only [setParent_apply, lastBelow, if_false]
  obtain ⟨unlinked, abovePath'⟩ := loose.unlink abovePath belowSound nodup
    (show map last = _ by rw [apply, if_pos rfl]; rfl)
    (fun address isRoot => by
      rw [apply, if_neg, if_pos isRoot]
      rintro rfl
      exact lastBelow isRoot)
    (fun address _ differs notRoot => by rw [apply, if_neg differs, if_neg notRoot])
  have length := length_path_lt_fuel nodup allocated
  obtain ⟨links, balanced, sound, -⟩ := balance_climbOn
    (show LooseOn ({ heap with links := map } : NodeHeap).links _ _ _ _ _ from unlinked)
    abovePath' nodup belowBalanced pathBalanced (by simp only [BinaryTree.height]; omega)
    (by simp [BinaryTree.height])
    (show whole.length < heap.fuel by simp only [List.length_cons] at length; omega)
  obtain ⟨oldRoot, stored'⟩ := stores_climb sound belowBalanced pathBalanced
    (by simp only [BinaryTree.height]; omega) (by simp [BinaryTree.height]) nodup allocated
    (List.ne_nil_of_mem (mem_inorder_plug.2 (.inl (mem_labels_cons.2 (.inl rfl)))))
  have order : inorder (climb (⟨false, last, sibling⟩ :: whole) below) =
      inorder (plug (⟨false, last, sibling⟩ :: whole) below) := by
    rw [inorder_climb, inorder_plug]
  obtain ⟨newPath, newLeft, newRight, climbed⟩ := exists_path
    (show this ∈ inorder (climb (⟨false, last, sibling⟩ :: whole) below) by
      rw [order]
      exact mem_inorder_plug.2 (.inl (mem_labels_cons.2 (.inr (.inr thisWhole)))))
  rw [← order] at fresh
  rw [climbed] at stored' fresh
  obtain ⟨taken, thisKept⟩ := sound_takeOver stored'.sound stored'.nodup fresh
  refine ⟨takeOver links this newLock, if oldRoot = this then newLock else oldRoot, newPath,
    newLeft, newRight, ?_, climbed, ⟨taken, ?_, balanced_map stored'.balanced, ?_, ?_⟩, ?_⟩
  · have split : plug (⟨false, last, sibling⟩ :: whole) (.node newLock below .nil) =
        plug path (.node this
          (plug (⟨false, last, sibling⟩ :: spine) (.node newLock below .nil)) right) := by
      rw [wholeEq, ← List.cons_append, plug_append]
      rfl
    obtain ⟨thisLinks, leftSound, -⟩ := (split ▸ stored.sound).plug.1
    obtain ⟨start, isStart⟩ :=
      exists_root_plug (⟨false, last, sibling⟩ :: spine) newLock below .nil
    have found : lastRight heap.fuel heap start = .ok newLock := by
      refine lastRight_eq (List.forall_mem_cons.2 ⟨rfl, turns⟩) leftSound isStart ?_
      rw [wholeEq] at length
      simp only [List.length_cons, List.length_append] at length ⊢
      omega
    have elsewhere : (heap.links newLock).parent ≠ some this := by
      rw [newLinks, parentOf_cons]
      simpa using lastNe
    have balanced' : balance heap.fuel { heap with links := map } last =
        .ok { heap with links := links } := balanced
    have turned : (setParent heap.links (root below) last newLock).left = root below := by
      rw [setParent_apply]
      split_ifs <;> simp [newLinks]
    rw [mapEq] at balanced'
    simp only [detach, thisLinks, isStart, found, bind, Except.bind, elsewhere, if_false]
    simp only [newLinks, parentOf_cons, deref, turned, balanced', pure, Except.pure]
  · rw [root_map, stored'.isRoot]
    rfl
  · rw [inorder_map]
    refine stored'.nodup.map_on fun first isFirst second isSecond same => ?_
    have ne : ∀ address ∈ inorder (plug newPath (.node this newLeft newRight)),
        address ≠ newLock := by
      rintro address member rfl
      exact fresh member
    have firstNe := ne first isFirst
    have secondNe := ne second isSecond
    split_ifs at same <;> simp_all
  · rw [inorder_map]
    intro address member
    obtain ⟨other, isOther, rfl⟩ := List.mem_map.1 member
    split_ifs
    · exact stored.allocated newLock (mem_inorder_plug.2 (.inr (by simp)))
    · exact stored'.allocated other isOther
  · rw [thisKept, stored'.sound.plug.1.1]

/-! ## The result of a removal -/

/--
A node is taken out of its tree: no null pointer is followed, and the result is
the root of a balanced search tree, whose sequence is the old one without the
node.
-/
def Removes (heap : NodeHeap) (this : Address) (tree : BinaryTree Address) : Prop :=
  ∃ heap' rootPtr' tree', remove heap this = .ok (heap', rootPtr') ∧
    SearchTree heap' rootPtr' tree' ∧ inorder tree' = (inorder tree).erase this

theorem erase_middle {first second : List Address} (nodup : (first ++ this :: second).Nodup) :
    (first ++ this :: second).erase this = first ++ second := by
  have fresh : this ∉ first := fun member =>
    (List.nodup_append.1 nodup).2.2 this member this (by simp) rfl
  rw [List.erase_append_right _ fresh, List.erase_cons_head]

theorem not_removes_of_error (fault : Fault) (failed : detach heap this = .error fault) :
    ¬ Removes heap this tree := by
  rintro ⟨heap', rootPtr', tree', removed, -⟩
  simp [remove, failed, bind, Except.bind] at removed

/-- The node keeps its parent, from which the root is found. -/
theorem removes_of_detach {newRoot above : Address} {tree' : BinaryTree Address}
    (stored : SearchTree heap rootPtr tree) (member : this ∈ inorder tree)
    (detached : detach heap this = .ok { heap with links := links })
    (stored' : Stores { heap with links := links } newRoot tree')
    (order : inorder tree' = (inorder tree).erase this)
    (isParent : (links this).parent = some above) (inside : above ∈ inorder tree') :
    Removes heap this tree := by
  have outside : this ∉ inorder tree' := by
    rw [order]
    exact stored.nodup.not_mem_erase
  have found := getRoot_of_parent stored' inside isParent outside (stored.allocated this member)
  refine ⟨{ heap with links := links }, newRoot, tree', ?_, ⟨stored', ordered_iff.2 ?_⟩, order⟩
  · simp only [remove, detached, bind, Except.bind, found, pure, Except.pure]
  · rw [order]
    exact stored.sorted.sublist (List.erase_sublist)

theorem removes_nil {frame : Frame Address}
    (stored : SearchTree heap rootPtr (plug (frame :: path) (.node this .nil right))) :
    Removes heap this (plug (frame :: path) (.node this .nil right)) := by
  obtain ⟨links, newRoot, detached, stored', isParent⟩ := detach_nil stored.toStores
  refine removes_of_detach stored (mem_inorder_plug.2 (.inr (by simp))) detached stored' ?_
    isParent ?_
  · have nodup := stored.nodup
    simp only [inorder_plug, inorder_node, inorder_nil, List.nil_append, List.append_assoc,
      List.cons_append] at nodup
    simp only [inorder_climb, inorder_plug, inorder_node, inorder_nil, List.nil_append,
      List.append_assoc, List.cons_append]
    exact (erase_middle nodup).symm
  · rw [inorder_climb, ← inorder_plug]
    exact mem_inorder_plug.2 (.inl (mem_labels_cons.2 (.inl rfl)))

theorem removes_near {frame : Frame Address} {below : BinaryTree Address}
    (stored : SearchTree heap rootPtr
      (plug (frame :: path) (.node this (.node newLock below .nil) right))) :
    Removes heap this (plug (frame :: path) (.node this (.node newLock below .nil) right)) := by
  obtain ⟨links, newRoot, detached, stored', isParent⟩ := detach_near stored.toStores
  refine removes_of_detach stored (mem_inorder_plug.2 (.inr (by simp))) detached stored' ?_
    isParent ?_
  · have nodup := stored.nodup
    rw [inorder_plug] at nodup
    have regroup : before (frame :: path) ++ inorder (.node this (.node newLock below .nil) right) ++
        after (frame :: path) = (before (frame :: path) ++ (inorder below ++ [newLock])) ++
          this :: (inorder right ++ after (frame :: path)) := by
      simp [List.append_assoc]
    rw [regroup] at nodup
    rw [inorder_plug, regroup, erase_middle nodup, inorder_climb, inorder_rebalance]
    simp [List.append_assoc]
  · rw [inorder_climb, inorder_rebalance, ← inorder_plug]
    exact mem_inorder_plug.2 (.inl (mem_labels_cons.2 (.inl rfl)))

/--
A node that is replaced by one from further below is taken out unless the
rebalancing, of which it still is a part, leaves it at the root.
-/
theorem removes_far_iff {spine whole : Path Address} {last : Address}
    {sibling below : BinaryTree Address} (turns : TurnsRight spine)
    (wholeEq : whole = spine ++ ⟨true, this, right⟩ :: path)
    (stored : SearchTree heap rootPtr
      (plug (⟨false, last, sibling⟩ :: whole) (.node newLock below .nil))) :
    Removes heap this (plug (⟨false, last, sibling⟩ :: whole) (.node newLock below .nil)) ↔
      root (climb (⟨false, last, sibling⟩ :: whole) below) ≠ some this := by
  obtain ⟨links, newRoot, newPath, newLeft, newRight, detached, climbed, stored', isParent⟩ :=
    detach_far turns wholeEq stored.toStores
  have nodup := stored.nodup
  obtain ⟨first, second, order, order'⟩ : ∃ first second,
      inorder (plug (⟨false, last, sibling⟩ :: whole) (.node newLock below .nil)) =
        (first ++ [newLock]) ++ this :: second ∧
      inorder (climb (⟨false, last, sibling⟩ :: whole) below) = first ++ this :: second := by
    have nothing : after (⟨false, last, sibling⟩ :: spine) = [] :=
      TurnsRight.after_eq (List.forall_mem_cons.2 ⟨rfl, turns⟩)
    refine ⟨before (⟨false, last, sibling⟩ :: whole) ++ inorder below,
      inorder right ++ after path, ?_, ?_⟩
    · rw [inorder_plug, wholeEq, ← List.cons_append, after_append, nothing]
      simp [after]
    · rw [inorder_climb, wholeEq, ← List.cons_append, after_append, nothing]
      simp [after]
  rw [order] at nodup
  have member : this ∈ inorder (plug (⟨false, last, sibling⟩ :: whole) (.node newLock below .nil)) := by
    rw [order]
    simp
  have renamed : inorder ((plug newPath (.node this newLeft newRight)).map fun address =>
      if address = this then newLock else address) =
      (inorder (plug (⟨false, last, sibling⟩ :: whole) (.node newLock below .nil))).erase this := by
    rw [order, erase_middle nodup, ← climbed, inorder_map, order']
    simp only [List.append_assoc, List.nodup_append, List.nodup_cons, List.mem_cons,
      List.mem_append] at nodup
    have keeps : ∀ list : List Address, this ∉ list →
        list.map (fun address => if address = this then newLock else address) = list := by
      intro list outside
      refine (List.map_congr_left fun address inside => if_neg ?_).trans (List.map_id' _)
      rintro rfl
      exact outside inside
    rw [List.map_append, List.map_cons, if_pos rfl, keeps first, keeps second]
    · simp
    · tauto
    · exact fun inside => nodup.2.2 this inside this (.inr (.inl rfl)) rfl
  rw [climbed]
  cases newPath with
  | nil =>
      refine iff_of_false ?_ (fun notRoot => notRoot rfl)
      rintro ⟨heap', rootPtr', tree', removed, stored'', order''⟩
      have found : getRoot heap.fuel { heap with links := links } this = .ok this := by
        simp [NodeHeap.fuel, getRoot, isParent]
      have returned : rootPtr' = this := by
        simp only [remove, detached, bind, Except.bind] at removed
        rw [show ({ heap with links := links } : NodeHeap).fuel = heap.fuel from rfl, found]
          at removed
        simp only [pure, Except.pure, Except.ok.injEq, Prod.mk.injEq] at removed
        exact removed.2.symm
      subst returned
      have inside := root_mem_inorder stored''.isRoot
      rw [order''] at inside
      exact stored.nodup.not_mem_erase inside
  | cons frame newPath =>
      rw [parentOf_cons] at isParent
      have distinct : (inorder (plug (frame :: newPath) (.node this newLeft newRight))).Nodup := by
        rw [← climbed, order']
        exact nodup.sublist (by simp)
      have apart := (nodup_inorder_plug_iff.1 distinct).2.2
      have labelNe : frame.label ≠ this := by
        rintro same
        exact apart frame.label (mem_labels_cons.2 (.inl rfl)) (by simp [same])
      refine iff_of_true (removes_of_detach stored member detached stored' renamed isParent ?_) ?_
      · rw [inorder_map]
        exact List.mem_map.2 ⟨frame.label, mem_inorder_plug.2 (.inl (mem_labels_cons.2 (.inl rfl))),
          if_neg labelNe⟩
      · obtain ⟨address, onPath, isRoot⟩ := root_plug frame newPath (.node this newLeft newRight)
        rw [isRoot]
        rintro same
        obtain rfl := Option.some.inj same
        exact apart address onPath (by simp)

/--
The root of a tree is turned below another node when the last node on its left
is taken out: that lowers the left subtree, which was lower than the right one
already.
-/
def RootSinks : BinaryTree Address → Prop
  | .node _ (.node label outer inner) right =>
      inner ≠ .nil ∧ right.height = (BinaryTree.node label outer inner).height + 1 ∧
        LastLowers (.node label outer inner)
  | _ => False

/-- Where the last node on the left of a node is not its child. -/
theorem exists_far (path : Path Address) (this label : Address)
    {outer inner : BinaryTree Address} (right : BinaryTree Address) (some' : inner ≠ .nil) :
    ∃ spine whole last sibling newLock below, TurnsRight spine ∧
      whole = spine ++ ⟨true, this, right⟩ :: path ∧
      plug path (.node this (.node label outer inner) right) =
        plug (⟨false, last, sibling⟩ :: whole) (.node newLock below .nil) ∧
      climb (⟨false, last, sibling⟩ :: whole) below =
        climb path (rebalance (.node this (removeLast (.node label outer inner)) right)) := by
  obtain ⟨child, between, end', rfl⟩ :
      ∃ child between end', inner = .node child between end' := by
    cases inner with
    | nil => exact absurd rfl some'
    | node child between end' => exact ⟨child, between, end', rfl⟩
  obtain ⟨spine, newLock, below, turns, innerEq⟩ := exists_last child between end'
  have turns' : TurnsRight (spine ++ [⟨false, label, outer⟩]) := by
    intro frame member
    rcases List.mem_append.1 member with inside | isLast
    · exact turns frame inside
    · rw [List.mem_singleton.1 isLast]
  have leftEq : BinaryTree.node label outer (.node child between end') =
      plug (spine ++ [⟨false, label, outer⟩]) (.node newLock below .nil) := by
    rw [plug_append, ← innerEq]
    rfl
  obtain ⟨⟨isLeft, last, sibling⟩, rest, spineEq⟩ :
      ∃ frame rest, spine ++ [⟨false, label, outer⟩] = frame :: rest :=
    List.exists_cons_of_ne_nil (by simp)
  rw [spineEq] at turns' leftEq
  obtain ⟨side, restTurns⟩ := List.forall_mem_cons.1 turns'
  obtain rfl : isLeft = false := side
  refine ⟨rest, _, last, sibling, newLock, below, restTurns, rfl, ?_, ?_⟩
  · rw [leftEq, ← List.cons_append, plug_append]
    rfl
  · rw [leftEq, ← climb_eq_removeLast turns', ← List.cons_append, climb_append]
    rfl

/--
`remove` from a search tree takes the node out, unless it is the root.  It takes
out the root if and only if its own rebalancing has turned the root below
another node.  For any other root, the code follows the null pointer to its
parent, or returns the removed node.
-/
theorem removes_iff (stored : SearchTree heap rootPtr tree) (member : this ∈ inorder tree) :
    Removes heap this tree ↔ this ≠ rootPtr ∨ RootSinks tree := by
  obtain ⟨path, left, right, rfl⟩ := exists_path member
  obtain ⟨here, above⟩ := stored.sound.plug
  obtain ⟨thisLinks, -, -⟩ := here
  obtain ⟨⟨leftLow, rightLow, leftBalanced, rightBalanced⟩, pathBalanced⟩ :=
    (balanced_plug_iff _ _).1 stored.balanced
  cases path with
  | cons frame path =>
      have notRoot : this ≠ rootPtr := by
        rintro rfl
        obtain ⟨address, onPath, isRoot⟩ := root_plug frame path (.node this left right)
        obtain rfl := Option.some.inj (stored.isRoot.symm.trans isRoot)
        exact (nodup_inorder_plug_iff.1 stored.nodup).2.2 this onPath (by simp)
      refine iff_of_true ?_ (.inl notRoot)
      rcases left with _ | ⟨label, outer, inner⟩
      · exact removes_nil stored
      · by_cases nearby : inner = .nil
        · subst nearby
          exact removes_near stored
        · obtain ⟨spine, whole, last, sibling, newLock, below, turns, wholeEq, treeEq, climbed⟩ :=
            exists_far (frame :: path) this label right nearby
          obtain ⟨lastBalanced, -, -⟩ := height_removeLast leftBalanced (by simp)
          obtain ⟨low, high⟩ := height_removeLast_le leftBalanced (by simp)
          obtain ⟨stepBalanced, stepLow, stepHigh, stepLevel⟩ :=
            balanced_rebalance this lastBalanced rightBalanced (by omega) (by omega)
          have shrunk : (BinaryTree.node this (.node label outer inner) right).height ≤
              (rebalance (.node this (removeLast (.node label outer inner)) right)).height + 1 := by
            rw [BinaryTree.height]
            omega
          have notGrown : (rebalance (.node this (removeLast (.node label outer inner)) right)).height ≤
              (BinaryTree.node this (.node label outer inner) right).height := by
            rw [BinaryTree.height]
            omega
          obtain ⟨address, onPath, isRoot⟩ := root_climb (List.cons_ne_nil frame path) stepBalanced
            pathBalanced notGrown shrunk
          have apart := (nodup_inorder_plug_iff.1 stored.nodup).2.2
          rw [treeEq] at stored ⊢
          refine (removes_far_iff turns wholeEq stored).2 ?_
          rw [climbed, isRoot]
          intro same
          exact apart address onPath (by simp [Option.some.inj same])
  | nil =>
      obtain rfl : this = rootPtr := Option.some.inj stored.isRoot
      simp only [ne_eq, not_true_eq_false, false_or]
      rcases left with _ | ⟨label, outer, inner⟩
      · refine iff_of_false (not_removes_of_error .nullDereference ?_) id
        simp [detach, thisLinks, deref, bind, Except.bind]
      · by_cases nearby : inner = .nil
        · subst nearby
          refine iff_of_false (not_removes_of_error .nullDereference ?_) fun sinks => sinks.1 rfl
          have newLinks : heap.links label = _ := stored.sound.2.1.1
          simp [detach, thisLinks, NodeHeap.fuel, lastRight, newLinks, bind, Except.bind, deref]
        · obtain ⟨spine, whole, last, sibling, newLock, below, turns, wholeEq, treeEq, climbed⟩ :=
            exists_far [] this label right nearby
          have decided := removes_far_iff turns wholeEq (treeEq ▸ stored)
          rw [climbed, ← treeEq] at decided
          refine decided.trans ?_
          obtain ⟨-, lowers, stays⟩ := height_removeLast leftBalanced (by simp)
          obtain ⟨low, high⟩ := height_removeLast_le leftBalanced (by simp)
          obtain ⟨address, isRoot, lifted⟩ := root_rebalance true this
            (show (removeLast (.node label outer inner)).height ≤ right.height + 1 by omega)
          simp only [nodeOn, if_true] at isRoot
          simp only [climb, isRoot, RootSinks]
          have thisRight : this ∉ inorder right := by
            have nodup := stored.nodup
            simp only [plug, inorder_node this, List.nodup_append, List.nodup_cons] at nodup
            exact nodup.2.1.1
          by_cases rises : (removeLast (.node label outer inner)).height + 1 < right.height
          · rw [if_pos rises] at lifted
            refine iff_of_true ?_ ⟨nearby, by omega, ?_⟩
            · rintro same
              obtain rfl := Option.some.inj same
              exact thisRight lifted
            · by_contra keeps
              have := stays keeps
              omega
          · rw [if_neg rises] at lifted
            refine iff_of_false (fun differs => differs (congrArg some lifted)) ?_
            rintro ⟨-, higher, lower⟩
            have := lowers lower
            omega

/-- The node at `20` of the two is taken out. -/
theorem removes_of_pair : Removes pair 1 (.node 0 .nil (.node 1 .nil .nil)) :=
  (removes_iff searchTree_pair (by decide)).2 (.inl (by decide))

/-- The root of the two has no left child, and its null parent is followed. -/
theorem exists_not_removes :
    ¬ ∀ (heap : NodeHeap) (rootPtr : Address) (tree : BinaryTree Address) (this : Address),
      SearchTree heap rootPtr tree → 2 ≤ (inorder tree).length → this ∈ inorder tree →
        Removes heap this tree :=
  fun claim => not_removes_of_error .nullDereference rfl
    (claim pair 0 _ 0 searchTree_pair (by decide) (by decide))

end AVLTreeLockNode

end Mvtx.Lock
