import Mvtx.Lock.NodeBalance
import Mathlib.Data.Finset.Card
import Mathlib.Data.Finset.Range

/-!
# Insertion in memory

`insert` descends from any node of the tree, hangs the new node below a leaf
and rebalances up to the root.  When the start of the new node separates the
in-order sequence of the subtree it starts from, the new node ends up at that
place of the sequence of the whole tree.
-/

namespace Mvtx.Lock

open Lib.AvlTree Lib.LinkedTree

/-- A heap stores a balanced tree with the given root. -/
structure Stores (heap : NodeHeap) (rootPtr : Address)
    (tree : BinaryTree Address) : Prop where
  sound : Sound heap.links none tree
  isRoot : root tree = some rootPtr
  balanced : Balanced tree
  nodup : (inorder tree).Nodup
  allocated : ∀ address ∈ inorder tree, address < heap.size

theorem length_le_of_nodup_of_lt {list : List Nat} {bound : Nat}
    (nodup : list.Nodup) (below : ∀ element ∈ list, element < bound) :
    list.length ≤ bound := by
  have contained : list.toFinset ⊆ Finset.range bound := by
    intro element member
    exact Finset.mem_range.2 (below element (List.mem_toFinset.1 member))
  simpa [List.toFinset_card_of_nodup nodup] using Finset.card_le_card contained

/-- The nodes of a path are fewer than the allocated ones. -/
theorem length_path_lt_fuel
    {heap : NodeHeap} {path : Path Address} {tree : BinaryTree Address}
    (nodup : (inorder (plug path tree)).Nodup)
    (allocated : ∀ address ∈ inorder (plug path tree), address < heap.size) :
    path.length < heap.fuel := by
  have bound : (labels path).length ≤ heap.size := by
    refine length_le_of_nodup_of_lt (nodup_inorder_plug_iff.1 nodup).1 ?_
    intro address member
    refine allocated address ?_
    simp only [inorder_plug, List.mem_append]
    simp only [labels, List.mem_append] at member
    tauto
  have := length_le_length_labels path
  unfold NodeHeap.fuel
  omega

namespace AVLTreeLockNode

/-- `getRoot` from any node of a stored tree. -/
theorem getRoot_eq
    {heap : NodeHeap} {path : Path Address} {this : Address} {fuel : Nat}
    {left right : BinaryTree Address}
    (sound : Sound heap.links none (plug path (.node this left right)))
    (enough : path.length < fuel) :
    ∃ rootPtr,
      root (plug path (.node this left right)) = some rootPtr ∧
        getRoot fuel heap this = .ok rootPtr := by
  induction path generalizing this left right fuel with
  | nil =>
      obtain ⟨fuel, rfl⟩ := Nat.exists_eq_succ_of_ne_zero (Nat.ne_of_gt enough)
      refine ⟨this, rfl, ?_⟩
      have here : heap.links this = _ := sound.1
      simp [getRoot, here]
  | cons frame path ih =>
      obtain ⟨fuel, rfl⟩ :=
        Nat.exists_eq_succ_of_ne_zero (Nat.ne_of_gt (Nat.zero_lt_of_lt enough))
      have parentEq : (heap.links this).parent = some frame.label := by
        rw [sound.plug.1.1, parentOf_cons]
      obtain ⟨left', right', filled, -, -⟩ :=
        (sound.plug.2.looseOn sound.plug.1).1.loose
      have whole : plug (frame :: path) (.node this left right) =
          plug path (.node frame.label left' right') := by
        rw [plug, Frame.fill, filled]
      rw [whole] at sound ⊢
      obtain ⟨rootPtr, isRoot, found⟩ :=
        ih sound (show path.length < fuel by simpa using enough)
      exact ⟨rootPtr, isRoot, by simp [getRoot, parentEq, found]⟩

/-- `getRoot` from any node of a stored tree finds its root. -/
theorem getRoot_of_mem {heap : NodeHeap} {rootPtr this : Address}
    {tree : BinaryTree Address} (stored : Stores heap rootPtr tree)
    (member : this ∈ inorder tree) : getRoot heap.fuel heap this = .ok rootPtr := by
  obtain ⟨path, left, right, rfl⟩ := exists_path member
  obtain ⟨found, isRoot, returned⟩ := getRoot_eq stored.sound
    (length_path_lt_fuel stored.nodup stored.allocated)
  obtain rfl := Option.some.inj (stored.isRoot.symm.trans isRoot)
  exact returned

/-- A rebalanced path is a balanced tree again. -/
theorem stores_climb {heap : NodeHeap} {links : LinkMap} {path : Path Address}
    {tree : BinaryTree Address} {height : Nat} (sound : Sound links none (climb path tree))
    (balanced : Balanced tree) (pathBalanced : BalancedPath path height)
    (grown : tree.height ≤ height + 1) (shrunk : height ≤ tree.height + 1)
    (nodup : (inorder (plug path tree)).Nodup)
    (allocated : ∀ address ∈ inorder (plug path tree), address < heap.size)
    (some' : inorder (plug path tree) ≠ []) :
    ∃ rootPtr, Stores { heap with links := links } rootPtr (climb path tree) := by
  have order : inorder (climb path tree) = inorder (plug path tree) := by
    rw [inorder_climb, inorder_plug]
  obtain ⟨rootPtr, isRoot⟩ : ∃ rootPtr, root (climb path tree) = some rootPtr := by
    cases whole : climb path tree with
    | nil => exact absurd (by simpa [whole] using order.symm) some'
    | node label left right => exact ⟨label, rfl⟩
  exact ⟨rootPtr, sound, isRoot, balanced_climb balanced pathBalanced grown shrunk,
    order ▸ nodup, order ▸ allocated⟩

variable {heap : NodeHeap} {path : Path Address} {this newLock : Address}

/-- The links around a new leaf, once it hangs below its parent. -/
theorem looseOn_attach
    {isLeft : Bool} {far : BinaryTree Address}
    (loose : LooseOn heap.links (parentOf path) this isLeft .nil far)
    (fresh : newLock ≠ this ∧ newLock ∉ inorder far)
    (freshThis : this ∉ inorder far)
    (detached : heap.links newLock = .detached) :
    LooseOn
      ((heap.links.modify this (·.setChild isLeft (some newLock))).modify newLock
        ({ · with parent := some this }))
      (parentOf path) this isLeft (.node newLock .nil .nil) far := by
  constructor
  · simp [LinkMap.modify_apply, fresh.1.symm, loose.parent_eq]
  · simp [LinkMap.modify_apply, fresh.1.symm]
  · simp [LinkMap.modify_apply, fresh.1.symm, loose.far_eq]
  · simp [Sound, LinkMap.modify_apply, fresh.1, detached, Links.detached]
  · refine loose.farSound.congr fun address member => ?_
    have notNew : address ≠ newLock := fun equal => fresh.2 (equal ▸ member)
    have notThis : address ≠ this := fun equal => freshThis (equal ▸ member)
    simp [LinkMap.modify_apply, notNew, notThis]

/--
Hanging the new node below a node without a child on that side, rebalancing
and looking up the root.
-/
theorem attach_eq
    {isLeft : Bool} {far : BinaryTree Address} {rootPtr : Address}
    (stored : Stores heap rootPtr (plug path (nodeOn isLeft this .nil far)))
    (fresh : newLock ∉ inorder (plug path (nodeOn isLeft this .nil far)))
    (allocated : newLock < heap.size)
    (detached : heap.links newLock = .detached) :
    ∃ links rootPtr tree,
      (do
          let heap ← balance heap.fuel
            ((heap.modifyLinks this (·.setChild isLeft (some newLock))).modifyLinks
              newLock ({ · with parent := some this })) this
          let root ← getRoot heap.fuel heap this
          return (heap, root)) =
          (.ok ({ heap with links := links }, rootPtr) :
            Exec (NodeHeap × Address)) ∧
        Stores { heap with links := links } rootPtr tree ∧
        inorder tree =
          before (⟨isLeft, this, far⟩ :: path) ++ newLock ::
            after (⟨isLeft, this, far⟩ :: path) := by
  let leaf : BinaryTree Address := .node newLock .nil .nil
  let frame : Frame Address := ⟨isLeft, this, far⟩
  have leafOrder : inorder (plug (frame :: path) leaf) =
      before (frame :: path) ++ newLock :: after (frame :: path) := by
    simp [inorder_plug, leaf]
  have oldOrder : inorder (plug (frame :: path) .nil) =
      before (frame :: path) ++ after (frame :: path) := by
    simp [inorder_plug]
  have climbOrder : inorder (climb (frame :: path) leaf) =
      inorder (plug (frame :: path) leaf) := by
    rw [inorder_climb, inorder_plug]
  have permuted : (inorder (plug (frame :: path) leaf)).Perm
      (newLock :: inorder (plug (frame :: path) .nil)) := by
    rw [leafOrder, oldOrder]
    exact List.perm_middle
  have leafNodup : (inorder (plug (frame :: path) leaf)).Nodup :=
    permuted.nodup_iff.2 (List.nodup_cons.2 ⟨fresh, stored.nodup⟩)
  have leafAllocated : ∀ address ∈ inorder (plug (frame :: path) leaf),
      address < heap.size := by
    intro address member
    rcases List.mem_cons.1 (permuted.mem_iff.1 member) with rfl | old
    · exact allocated
    · exact stored.allocated address old
  obtain ⟨nilBalanced, pathBalanced⟩ := balanced_plug_iff (frame :: path) .nil |>.1
    stored.balanced
  obtain ⟨loose, above⟩ := stored.sound.plug
  rw [root_nodeOn] at above
  have distinct := nodup_inorder_plug_iff.1 leafNodup
  have freshLabels : newLock ∉ labels (frame :: path) := fun member =>
    distinct.2.2 newLock member (by simp [leaf])
  simp only [mem_labels_cons, not_or] at freshLabels
  have thisFresh := nodup_labels_cons distinct.1
  have attached := looseOn_attach loose.looseOn
    ⟨freshLabels.1, freshLabels.2.1⟩ thisFresh.1 detached
  have attachedPath : SoundPath
      ((heap.links.modify this (·.setChild isLeft (some newLock))).modify newLock
        ({ · with parent := some this })) (some this) path :=
    above.congr fun address member => by
      have notNew : address ≠ newLock := fun equal =>
        freshLabels.2.2 (equal ▸ member)
      have notThis : address ≠ this := by
        rintro rfl
        exact thisFresh.2 member
      simp [LinkMap.modify_apply, notNew, notThis]
  have leafBalanced : Balanced leaf := by simp [leaf, Lib.AvlTree.Balanced]
  have enough : path.length < heap.fuel := by
    have := length_path_lt_fuel leafNodup leafAllocated
    simp only [List.length_cons] at this
    omega
  obtain ⟨links, balanced, sound, -⟩ := balance_climbOn
    (show LooseOn ((heap.modifyLinks this (·.setChild isLeft (some newLock))).modifyLinks
      newLock ({ · with parent := some this })).links _ _ _ _ _ from attached)
    attachedPath leafNodup leafBalanced pathBalanced (by simp) (by simp) enough
  have balancedEq : balance heap.fuel
      ((heap.modifyLinks this (·.setChild isLeft (some newLock))).modifyLinks newLock
        ({ · with parent := some this })) this = .ok { heap with links := links } := balanced
  obtain ⟨newRoot, stored'⟩ := stores_climb sound leafBalanced pathBalanced
    (by simp) (by simp) leafNodup leafAllocated
    (by rw [leafOrder]; exact List.append_ne_nil_of_right_ne_nil _ (by simp))
  have found := getRoot_of_mem stored' (show this ∈ _ by
    rw [climbOrder, mem_inorder_plug]
    exact .inl (mem_labels_cons.2 (.inl rfl)))
  refine ⟨links, newRoot, climb (frame :: path) leaf, ?_, stored', ?_⟩
  · simp only [balancedEq, bind, Except.bind, found]
    rfl
  · rw [climbOrder, leafOrder]

/-- The root of a list split around it, when it belongs to the second part. -/
theorem split_left {α : Type*} {first second below above : List α} {pivot : α}
    (split : below ++ pivot :: above = first ++ second) (notFirst : pivot ∉ first) :
    ∃ rest, below = first ++ rest ∧ second = rest ++ pivot :: above := by
  rcases List.append_eq_append_iff.1 split with ⟨rest, rfl, tail⟩ | ⟨rest, rfl, rfl⟩
  · cases rest with
    | nil => exact ⟨[], by simp, by simpa using tail.symm⟩
    | cons head rest =>
        simp only [List.cons_append, List.cons.injEq] at tail
        simp [tail.1] at notFirst
  · exact ⟨rest, rfl, rfl⟩

/-- The root of a list split around it, when it belongs to the first part. -/
theorem split_right {α : Type*} {first second below above : List α} {pivot : α}
    (split : below ++ pivot :: above = first ++ second) (notSecond : pivot ∉ second) :
    ∃ rest, first = below ++ pivot :: rest ∧ above = rest ++ second := by
  rcases List.append_eq_append_iff.1 split with ⟨rest, rfl, tail⟩ | ⟨rest, rfl, rfl⟩
  · cases rest with
    | nil =>
        rw [List.nil_append] at tail
        exact absurd (by simp [← tail]) notSecond
    | cons head rest =>
        simp only [List.cons_append, List.cons.injEq] at tail
        exact ⟨rest, by simp [tail.1], tail.2⟩
  · exact absurd (by simp) notSecond

/--
`insert` from a node whose subtree has the sequence `first ++ second`, where
the start of the new node separates the two parts.
-/
theorem insert_eq
    {subtree : BinaryTree Address} {fuel : Nat} {rootPtr : Address}
    {first second : List Address}
    (isSubtree : root subtree = some this)
    (stored : Stores heap rootPtr (plug path subtree))
    (fresh : newLock ∉ inorder (plug path subtree))
    (allocated : newLock < heap.size)
    (detached : heap.links newLock = .detached)
    (split : inorder subtree = first ++ second)
    (low : ∀ address ∈ first,
      (heap.pub address).startTs ≤ (heap.pub newLock).startTs)
    (high : ∀ address ∈ second,
      (heap.pub newLock).startTs < (heap.pub address).startTs)
    (enough : subtree.height ≤ fuel) :
    ∃ links rootPtr tree,
      insert fuel heap this newLock = .ok ({ heap with links := links }, rootPtr) ∧
        Stores { heap with links := links } rootPtr tree ∧
        inorder tree =
          before path ++ first ++ newLock :: (second ++ after path) := by
  induction subtree generalizing path this fuel first second with
  | nil => simp at isSubtree
  | node label left right leftIH rightIH =>
      simp only [root_node, Option.some.injEq] at isSubtree
      subst isSubtree
      simp only [BinaryTree.height] at enough
      obtain ⟨fuel, rfl⟩ : ∃ n, fuel = n + 1 := ⟨fuel - 1, by omega⟩
      have links := stored.sound.plug.1.1
      simp only [inorder_node] at split
      by_cases goesLeft : (heap.pub newLock).startTs < (heap.pub label).startTs
      · obtain ⟨rest, leftSplit, rfl⟩ := split_left split fun member => by
          have := low label member
          omega
        cases left with
        | nil =>
            obtain ⟨rfl, rfl⟩ : first = [] ∧ rest = [] := by
              simpa using leftSplit
            obtain ⟨links', rootPtr', tree, attached, stored', order⟩ :=
              attach_eq
                (show Stores heap rootPtr (plug path (nodeOn true label .nil right)) from
                  stored) fresh allocated detached
            refine ⟨links', rootPtr', tree, ?_, stored', ?_⟩
            · rw [insert, if_pos goesLeft, links]
              exact attached
            · rw [order]
              simp [before, after]
        | node child outer between =>
            obtain ⟨links', rootPtr', tree, inserted, stored', order⟩ :=
              leftIH rfl
                (show Stores heap rootPtr (plug (⟨true, label, right⟩ :: path) _) from
                  stored) fresh leftSplit low
                (fun address member => high address (by simp [member]))
                (show (BinaryTree.node child outer between).height ≤ fuel by omega)
            refine ⟨links', rootPtr', tree, ?_, stored', ?_⟩
            · rw [insert, if_pos goesLeft, links]
              exact inserted
            · rw [order]
              simp [before, after]
      · obtain ⟨rest, rfl, rightSplit⟩ := split_right split fun member => by
          have := high label member
          omega
        cases right with
        | nil =>
            obtain ⟨rfl, rfl⟩ : rest = [] ∧ second = [] := by
              simpa using rightSplit
            obtain ⟨links', rootPtr', tree, attached, stored', order⟩ :=
              attach_eq
                (show Stores heap rootPtr (plug path (nodeOn false label .nil left)) from
                  stored) fresh allocated detached
            refine ⟨links', rootPtr', tree, ?_, stored', ?_⟩
            · rw [insert, if_neg goesLeft, links]
              exact attached
            · rw [order]
              simp [before, after]
        | node child between outer =>
            obtain ⟨links', rootPtr', tree, inserted, stored', order⟩ :=
              rightIH rfl
                (show Stores heap rootPtr (plug (⟨false, label, left⟩ :: path) _) from
                  stored) fresh rightSplit
                (fun address member => low address (by simp [member])) high
                (show (BinaryTree.node child between outer).height ≤ fuel by omega)
            refine ⟨links', rootPtr', tree, ?_, stored', ?_⟩
            · rw [insert, if_neg goesLeft, links]
              exact inserted
            · rw [order]
              simp [before, after]

end AVLTreeLockNode

end Mvtx.Lock
