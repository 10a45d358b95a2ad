import Mvtx.Lib.Tiling
import Mvtx.Lock.Manager
import Mvtx.Lock.NodeFind

/-!
# The interval tree of a key

`Laid` says that a heap stores the tree of a key: a balanced search tree whose
intervals, in order, tile all timestamps, and of which the first is `[0, 0]`
and frozen.  A search finds the interval of any timestamp, and cutting an
interval in two keeps the tree laid out.
-/

namespace Mvtx.Lock

open Lib Lib.AvlTree Lib.LinkedTree AVLTreeLockNode AVLTreeLockManager

/-- The nodes store the tree of a key. -/
structure Laid (heap : NodeHeap) (rootPtr : Address) (nodes : List Address) :
    Prop where
  stored : ∃ tree, Stores heap rootPtr tree ∧ inorder tree = nodes
  tiles : Tiles (fun node => (heap.pub node).startTs)
    (fun node => (heap.pub node).endTs) 0 (uintMax + 1) nodes
  origin : ∃ first rest, nodes = first :: rest ∧ heap.pub first = originInterval

namespace Laid

variable {heap : NodeHeap} {rootPtr : Address} {nodes below above : List Address}
  {node : Address}

theorem nodup (laid : Laid heap rootPtr nodes) : nodes.Nodup := by
  obtain ⟨tree, stored, rfl⟩ := laid.stored
  exact stored.nodup

theorem allocated (laid : Laid heap rootPtr nodes) (member : node ∈ nodes) :
    node < heap.size := by
  obtain ⟨tree, stored, rfl⟩ := laid.stored
  exact stored.allocated node member

theorem length_lt_fuel (laid : Laid heap rootPtr nodes) :
    nodes.length < heap.fuel := by
  have bound := length_le_of_nodup_of_lt laid.nodup fun node => laid.allocated
  unfold NodeHeap.fuel
  omega

/-- Statuses and holders may change without disturbing the layout. -/
theorem setPub {pub : Address → Interval}
    (laid : Laid heap rootPtr nodes)
    (bounds : ∀ node ∈ nodes, (pub node).startTs = (heap.pub node).startTs ∧
      (pub node).endTs = (heap.pub node).endTs)
    (frozen : ∀ node ∈ nodes, heap.pub node = originInterval →
      pub node = originInterval) :
    Laid { heap with pub := pub } rootPtr nodes := by
  obtain ⟨tree, stored, order⟩ := laid.stored
  obtain ⟨first, rest, rfl, isOrigin⟩ := laid.origin
  refine ⟨⟨tree, ?_, order⟩, laid.tiles.congr bounds,
    first, rest, rfl, frozen first (by simp) isOrigin⟩
  exact ⟨stored.sound, stored.isRoot, stored.balanced, stored.nodup, stored.allocated⟩

/-- The nodes around one whose interval contains a timestamp. -/
theorem around {ts : Nat}
    (laid : Laid heap rootPtr (below ++ node :: above))
    (covers : (heap.pub node).Covers ts) :
    (∀ address ∈ below,
        (heap.pub address).startTs ≤ ts ∧ (heap.pub address).endTs < ts) ∧
      ∀ address ∈ above, ts < (heap.pub address).startTs :=
  laid.tiles.around_point covers

/-- A search from the root finds the interval of a timestamp. -/
theorem find_root {ts : Nat}
    (laid : Laid heap rootPtr (below ++ node :: above))
    (covers : (heap.pub node).Covers ts) :
    ∃ stack,
      find heap.fuel heap [] rootPtr ts = .ok stack ∧
        Pending heap.links stack (below ++ [node]) := by
  obtain ⟨before, after⟩ := laid.around covers
  have short := laid.length_lt_fuel
  obtain ⟨tree, stored, order⟩ := laid.stored
  have height := height_le_length_inorder tree
  rw [order] at height
  obtain ⟨stack, found, pending⟩ :=
    find_eq stored.isRoot stored.sound .nil order before covers after
      (show tree.height ≤ heap.fuel by omega)
  exact ⟨stack, found, by simpa using pending⟩

/-- Every timestamp lies in the interval of a node. -/
theorem exists_cover {ts : Nat}
    (laid : Laid heap rootPtr nodes) (bound : ts ≤ uintMax) :
    ∃ below node above,
      nodes = below ++ node :: above ∧ (heap.pub node).Covers ts := by
  obtain ⟨below, node, above, split, covers⟩ :=
    laid.tiles.exists_cover ts (Nat.zero_le _) (by omega)
  exact ⟨below, node, above, split, covers⟩

/-- The origin is the only node that contains the timestamp zero. -/
theorem eq_origin
    (laid : Laid heap rootPtr nodes) (member : node ∈ nodes)
    (starts : (heap.pub node).startTs = 0) :
    heap.pub node = originInterval := by
  obtain ⟨first, rest, rfl, isOrigin⟩ := laid.origin
  rcases List.mem_cons.1 member with rfl | later
  · exact isOrigin
  · obtain ⟨-, -, tiles⟩ := laid.tiles
    have := (tiles.bounds later).1
    omega

/-- The last interval ends at the last timestamp. -/
theorem end_le (laid : Laid heap rootPtr nodes) (member : node ∈ nodes) :
    (heap.pub node).startTs ≤ (heap.pub node).endTs ∧
      (heap.pub node).endTs ≤ uintMax := by
  have := laid.tiles.bounds member
  omega

theorem ordered (laid : Laid heap rootPtr (below ++ node :: above)) :
    (heap.pub node).startTs ≤ (heap.pub node).endTs ∧
      (heap.pub node).endTs ≤ uintMax :=
  laid.end_le (List.mem_append_right _ List.mem_cons_self)

/-- The node before one that does not start at zero ends just below it. -/
theorem exists_previous
    (laid : Laid heap rootPtr (below ++ node :: above))
    (notOrigin : (heap.pub node).startTs ≠ 0) :
    ∃ earlier previous,
      below = earlier ++ [previous] ∧
        (heap.pub previous).endTs + 1 = (heap.pub node).startTs := by
  obtain ⟨lowPart, -, -⟩ := laid.tiles.around
  rcases List.eq_nil_or_concat below with rfl | ⟨earlier, previous, rfl⟩
  · exact absurd lowPart.symm notOrigin
  · obtain ⟨-, -, last⟩ := (List.concat_eq_append ▸ lowPart).around
    exact ⟨earlier, previous, List.concat_eq_append, last⟩

theorem last_not_mem (laid : Laid heap rootPtr (below ++ node :: above)) :
    node ∉ below := by
  have nodup := laid.nodup
  rw [List.perm_middle.nodup_iff, List.nodup_cons] at nodup
  exact fun member => nodup.1 (List.mem_append_left _ member)

/-- The search from a popped node for the timestamp just below it. -/
theorem step_back {stack : List Address}
    (laid : Laid heap rootPtr (below ++ node :: above))
    (pending : Pending heap.links (node :: stack) (below ++ [node]))
    (notOrigin : (heap.pub node).startTs ≠ 0) :
    ∃ earlier previous stack',
      below = earlier ++ [previous] ∧
        uintPred (heap.pub node).startTs = (heap.pub previous).endTs ∧
        find heap.fuel heap stack node (uintPred (heap.pub node).startTs) = .ok stack' ∧
        Pending heap.links stack' (earlier ++ [previous]) := by
  obtain ⟨earlier, previous, rfl, adjacent⟩ := laid.exists_previous notOrigin
  have bound := laid.ordered
  have pred : uintPred (heap.pub node).startTs = (heap.pub previous).endTs := by
    rw [uintPred_eq (by omega)]
    omega
  rw [List.append_assoc] at laid
  have ordered := laid.ordered
  have covers : (heap.pub previous).Covers (uintPred (heap.pub node).startTs) :=
    ⟨by omega, by omega⟩
  have short := laid.length_lt_fuel
  simp only [List.length_append, List.length_cons] at short
  obtain ⟨stack', rest, found, pending', emptyRest, -⟩ :=
    find_next pending (by omega)
      (show earlier ++ [previous] = earlier ++ previous :: [] from rfl)
      (laid.around covers).1 covers (by simp)
      (show (earlier ++ [previous]).length < heap.fuel by
        simp only [List.length_append, List.length_cons, List.length_nil]
        omega)
  obtain rfl := List.prefix_nil.1 emptyRest
  exact ⟨earlier, previous, stack', rfl, pred, found, pending'⟩

/-! ## Cutting an interval in two -/

/--
A new node that hangs below another one comes next to it in order, on the
side which its start selects.
-/
theorem insert_beside
    (laid : Laid heap rootPtr (below ++ node :: above))
    (heap' : NodeHeap) (first second : List Address)
    (links : heap'.links = Function.update heap.links heap.size .detached)
    (size : heap'.size = heap.size + 1)
    (split : first = below ++ [node] ∧ second = above ∨
      first = below ∧ second = node :: above)
    (low : ∀ address ∈ first,
      (heap'.pub address).startTs ≤ (heap'.pub heap.size).startTs)
    (high : ∀ address ∈ second,
      (heap'.pub heap.size).startTs < (heap'.pub address).startTs) :
    ∃ links rootPtr tree,
      AVLTreeLockNode.insert heap'.fuel heap' node heap.size =
          .ok ({ heap' with links := links }, rootPtr) ∧
        Stores { heap' with links := links } rootPtr tree ∧
        inorder tree = first ++ heap.size :: second := by
  obtain ⟨tree, stored, order⟩ := laid.stored
  have short := laid.length_lt_fuel
  have fresh : heap.size ∉ inorder tree := fun member =>
    Nat.lt_irrefl _ (stored.allocated _ member)
  have stored' : Stores heap' rootPtr tree := by
    refine ⟨stored.sound.congr fun address member => ?_, stored.isRoot,
      stored.balanced, stored.nodup, fun address member => ?_⟩
    · rw [links, Function.update_of_ne]
      rintro rfl
      exact fresh member
    · rw [size]
      exact Nat.lt_succ_of_lt (stored.allocated address member)
  obtain ⟨path, left, right, rfl, rfl, rfl⟩ :=
    exists_path_of_split stored.nodup order
  have allocated : heap.size < heap'.size := size ▸ Nat.lt_succ_self _
  have detached : heap'.links heap.size = .detached := by
    simp [links]
  have height : (BinaryTree.node node left right).height ≤ heap'.fuel := by
    have := height_le_length_inorder (.node node left right)
    simp only [List.length_append, List.length_cons, inorder_node] at this short
    unfold NodeHeap.fuel at short ⊢
    omega
  rcases split with ⟨rfl, rfl⟩ | ⟨rfl, rfl⟩
  · obtain ⟨links', rootPtr', tree', inserted, stored'', order'⟩ :=
      insert_eq rfl stored' fresh allocated detached
        (show inorder (.node node left right) = (inorder left ++ [node]) ++ inorder right by
          simp)
        (fun address member => low address (by
          simp only [List.mem_append] at member ⊢
          tauto))
        (fun address member => high address (by simp [member])) height
    exact ⟨links', rootPtr', tree', inserted, stored'', by simp [order']⟩
  · obtain ⟨links', rootPtr', tree', inserted, stored'', order'⟩ :=
      insert_eq rfl stored' fresh allocated detached
        (show inorder (.node node left right) = inorder left ++ node :: inorder right by
          simp)
        (fun address member => low address (by simp [member]))
        (fun address member => high address (by
          simp only [List.mem_cons, List.mem_append] at member ⊢
          tauto)) height
    exact ⟨links', rootPtr', tree', inserted, stored'', by simp [order']⟩

/-- A longer interval is not the origin, which stays first. -/
theorem origin_of_cut
    (laid : Laid heap rootPtr (below ++ node :: above))
    (heap' : NodeHeap) (middle : List Address)
    (long : (heap.pub node).startTs < (heap.pub node).endTs)
    (kept : ∀ address ∈ below, heap'.pub address = heap.pub address) :
    ∃ first rest,
      below ++ middle ++ above = first :: rest ∧
        heap'.pub first = originInterval := by
  obtain ⟨first, rest, split, isOrigin⟩ := laid.origin
  cases below with
  | nil =>
      simp only [List.nil_append, List.cons.injEq] at split
      rw [split.1, isOrigin] at long
      exact absurd long (by decide)
  | cons head below =>
      simp only [List.cons_append, List.cons.injEq] at split
      refine ⟨head, below ++ middle ++ above, rfl, ?_⟩
      rw [kept head (by simp), split.1, isOrigin]

/-- The intervals once a node has been allocated and another one cut. -/
theorem pub_of_cut {heap' : NodeHeap} {interval : Interval}
    {change : Interval → Interval}
    (laid : Laid heap rootPtr (below ++ node :: above))
    (cutting : heap' = (heap.allocate interval).1.modifyPub node change) :
    heap'.pub node = change (heap.pub node) ∧
      heap'.pub heap.size = interval ∧
      ∀ address ∈ below ++ above, heap'.pub address = heap.pub address := by
  have old : ∀ address ∈ below ++ node :: above, address ≠ heap.size :=
    fun address member => Nat.ne_of_lt (laid.allocated member)
  have nodup := laid.nodup
  rw [List.perm_middle.nodup_iff, List.nodup_cons] at nodup
  subst cutting
  refine ⟨?_, ?_, fun address member => ?_⟩
  · simp [NodeHeap.modifyPub, NodeHeap.allocate, old node (by simp)]
  · simp [NodeHeap.modifyPub, NodeHeap.allocate, (old node (by simp)).symm]
  · have notNode : address ≠ node := by
      rintro rfl
      exact nodup.1 member
    have notNew : address ≠ heap.size := old address (by
      simp only [List.mem_append, List.mem_cons] at member ⊢
      tauto)
    simp only [NodeHeap.modifyPub, NodeHeap.allocate, Function.update_of_ne notNode,
      Function.update_of_ne notNew]

/-- What lies above a timestamp is cut off into a new node. -/
theorem cut_above {cut : Nat} {heap' : NodeHeap}
    (laid : Laid heap rootPtr (below ++ node :: above))
    (inside : (heap.pub node).startTs ≤ cut ∧ cut < (heap.pub node).endTs)
    (cutting : heap' = (heap.allocate
      { heap.pub node with startTs := uintSucc cut }).1.modifyPub node
        ({ · with endTs := cut })) :
    ∃ heap'' rootPtr',
      AVLTreeLockNode.insert heap'.fuel heap' node heap.size = .ok (heap'', rootPtr') ∧
        Laid heap'' rootPtr' (below ++ node :: heap.size :: above) ∧
        heap''.pub node = { heap.pub node with endTs := cut } ∧
        heap''.pub heap.size = { heap.pub node with startTs := cut + 1 } ∧
        ∀ address ∈ below ++ above, heap''.pub address = heap.pub address := by
  have succ : uintSucc cut = cut + 1 := by
    have := laid.ordered.2
    exact uintSucc_eq (by omega)
  obtain ⟨pubNode, pubNew, pubOther⟩ := laid.pub_of_cut cutting
  rw [succ] at pubNew
  obtain ⟨lowPart, ordered, highPart⟩ := laid.tiles.around
  obtain ⟨links, rootPtr', tree, inserted, stored, order⟩ :=
    laid.insert_beside heap' (below ++ [node]) above
      (by rw [cutting]; rfl) (by rw [cutting]; rfl) (.inl ⟨rfl, rfl⟩)
      (by
        intro address member
        rcases List.mem_append.1 member with low | here
        · have := lowPart.bounds low
          rw [pubOther address (by simp [low]), pubNew]
          simp only
          omega
        · obtain rfl := List.mem_singleton.1 here
          rw [pubNode, pubNew]
          simp only
          omega)
      (by
        intro address member
        have := highPart.bounds member
        rw [pubOther address (by simp [member]), pubNew]
        simp only
        omega)
  refine ⟨{ heap' with links := links }, rootPtr', inserted,
    ⟨⟨tree, stored, by simp [order]⟩, ?_, ?_⟩, pubNode, pubNew, pubOther⟩
  · refine Tiles.append_iff.2 ⟨(heap.pub node).startTs, ?_, ?_⟩
    · refine lowPart.congr fun address member => ?_
      simp only [pubOther address (by simp [member]), and_self]
    · simp only [Tiles, pubNode, pubNew]
      refine ⟨trivial, by omega, trivial, by omega, ?_⟩
      refine highPart.congr fun address member => ?_
      simp only [pubOther address (by simp [member]), and_self]
  · have kept := laid.origin_of_cut heap' [node, heap.size]
      (by omega) fun address member => pubOther address (by simp [member])
    simpa using kept

/-- What lies below a timestamp is cut off into a new node. -/
theorem cut_below {cut : Nat} {heap' : NodeHeap}
    (laid : Laid heap rootPtr (below ++ node :: above))
    (inside : (heap.pub node).startTs < cut ∧ cut ≤ (heap.pub node).endTs)
    (cutting : heap' = (heap.allocate
      { heap.pub node with endTs := uintPred cut }).1.modifyPub node
        ({ · with startTs := cut })) :
    ∃ heap'' rootPtr',
      AVLTreeLockNode.insert heap'.fuel heap' node heap.size = .ok (heap'', rootPtr') ∧
        Laid heap'' rootPtr' (below ++ heap.size :: node :: above) ∧
        heap''.pub node = { heap.pub node with startTs := cut } ∧
        heap''.pub heap.size = { heap.pub node with endTs := cut - 1 } ∧
        ∀ address ∈ below ++ above, heap''.pub address = heap.pub address := by
  have pred : uintPred cut = cut - 1 := by
    have := laid.ordered.2
    exact uintPred_eq (by omega)
  obtain ⟨pubNode, pubNew, pubOther⟩ := laid.pub_of_cut cutting
  rw [pred] at pubNew
  obtain ⟨lowPart, ordered, highPart⟩ := laid.tiles.around
  obtain ⟨links, rootPtr', tree, inserted, stored, order⟩ :=
    laid.insert_beside heap' below (node :: above)
      (by rw [cutting]; rfl) (by rw [cutting]; rfl) (.inr ⟨rfl, rfl⟩)
      (by
        intro address member
        have := lowPart.bounds member
        rw [pubOther address (by simp [member]), pubNew]
        simp only
        omega)
      (by
        intro address member
        rcases List.mem_cons.1 member with rfl | high
        · rw [pubNode, pubNew]
          exact inside.1
        · have := highPart.bounds high
          rw [pubOther address (by simp [high]), pubNew]
          simp only
          omega)
  refine ⟨{ heap' with links := links }, rootPtr', inserted,
    ⟨⟨tree, stored, by simp [order]⟩, ?_, ?_⟩, pubNode, pubNew, pubOther⟩
  · refine Tiles.append_iff.2 ⟨(heap.pub node).startTs, ?_, ?_⟩
    · refine lowPart.congr fun address member => ?_
      simp only [pubOther address (by simp [member]), and_self]
    · simp only [Tiles, pubNode, pubNew]
      refine ⟨trivial, by omega, by omega, by omega, ?_⟩
      refine highPart.congr fun address member => ?_
      simp only [pubOther address (by simp [member]), and_self]
  · have kept := laid.origin_of_cut heap' [heap.size, node]
      (by omega) fun address member => pubOther address (by simp [member])
    simpa using kept

end Laid

end Mvtx.Lock
