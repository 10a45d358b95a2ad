import Mvtx.Lock.KeyTree

/-!
# The timeline of a key

What the rest of the program needs to know of the lock manager: for every key
the intervals of its tree in order, the events registered under their ends,
and for every transaction the range it has recorded for a key.  A key without
a tree counts as having the tree that `createKeyInfo` would build.
-/

namespace Mvtx.Lock

open Lib Lib.AvlTree Lib.LinkedTree AVLTreeLockNode AVLTreeLockManager

/-- The nodes below a pointer from left to right. -/
def walk : Nat → LinkMap → Option Address → List Address
  | _, _, none => []
  | 0, _, some _ => []
  | fuel + 1, links, some node =>
      walk fuel links (links node).left ++ node :: walk fuel links (links node).right

theorem walk_eq {links : LinkMap} {parent : Option Address}
    {tree : BinaryTree Address} {fuel : Nat}
    (sound : Sound links parent tree) (enough : tree.height ≤ fuel) :
    walk fuel links (root tree) = inorder tree := by
  induction tree generalizing parent fuel with
  | nil => cases fuel <;> rfl
  | node label left right leftIH rightIH =>
      simp only [BinaryTree.height] at enough
      obtain ⟨fuel, rfl⟩ : ∃ n, fuel = n + 1 := ⟨fuel - 1, by omega⟩
      obtain ⟨here, leftSound, rightSound⟩ := sound
      rw [root_node, walk, here, leftIH leftSound (by omega),
        rightIH rightSound (by omega), inorder_node]

namespace KeyInfo

/-- The nodes of a key's tree in order. -/
def nodes (info : KeyInfo) : List Address :=
  walk info.heap.fuel info.heap.links (some info.root)

/-- The intervals of a key in order. -/
def timeline (info : KeyInfo) : List Interval :=
  info.nodes.map info.heap.pub

/-- The tree of a key is laid out. -/
def WellFormed (info : KeyInfo) : Prop :=
  Laid info.heap info.root info.nodes

end KeyInfo

theorem Laid.walk_eq {heap : NodeHeap} {rootPtr : Address} {nodes : List Address}
    (laid : Laid heap rootPtr nodes) :
    walk heap.fuel heap.links (some rootPtr) = nodes := by
  have short := laid.length_lt_fuel
  obtain ⟨tree, stored, rfl⟩ := laid.stored
  have height := height_le_length_inorder tree
  rw [← stored.isRoot]
  exact Lock.walk_eq stored.sound (by omega)

theorem Laid.wellFormed (info : KeyInfo) {nodes : List Address}
    (laid : Laid info.heap info.root nodes) :
    info.WellFormed ∧ info.nodes = nodes := by
  have same : info.nodes = nodes := laid.walk_eq
  refine ⟨?_, same⟩
  rw [KeyInfo.WellFormed, same]
  exact laid

/-- The intervals of a key that no operation has touched. -/
def initialTimeline : List Interval := [originInterval, futureInterval]

theorem newKeyInfo_eq :
    ∃ info, newKeyInfo = .ok info ∧ info.WellFormed ∧
      info.timeline = initialTimeline ∧ info.events = fun _ => none := by
  refine ⟨_, rfl, ?_, rfl, rfl⟩
  refine ⟨⟨.node 0 .nil (.node 1 .nil .nil), ⟨?_, rfl, ?_, ?_, ?_⟩, rfl⟩,
    ?_, ⟨0, [1], rfl, rfl⟩⟩
  · exact ⟨rfl, trivial, rfl, trivial, trivial⟩
  · simp [Lib.AvlTree.Balanced]
  · decide
  · decide
  · exact ⟨rfl, by decide, rfl, by decide, rfl⟩

/-- Intervals that tile all timestamps, the first of them the origin. -/
structure IsTimeline (intervals : List Interval) : Prop where
  tiles : Tiles Interval.startTs Interval.endTs 0 (uintMax + 1) intervals
  origin : intervals.head? = some originInterval

theorem KeyInfo.WellFormed.isTimeline {info : KeyInfo}
    (wellFormed : info.WellFormed) : IsTimeline info.timeline := by
  refine ⟨Tiles.map_iff.2 wellFormed.tiles, ?_⟩
  obtain ⟨first, rest, split, isOrigin⟩ := wellFormed.origin
  rw [KeyInfo.timeline, split, List.map_cons, List.head?_cons, isOrigin]

namespace AVLTreeLockManager

/-- The intervals of a key. -/
def timeline (manager : AVLTreeLockManager) (key : Nat) : List Interval :=
  match manager.keyMap key with
  | none => initialTimeline
  | some info => info.timeline

/-- The events registered for a key under the end of an interval. -/
def eventsAt (manager : AVLTreeLockManager) (key tsEnd : Nat) : Finset Nat :=
  match manager.keyMap key with
  | none => ∅
  | some info => (info.events tsEnd).getD ∅

/-- The range that a transaction has recorded for a key. -/
def record (manager : AVLTreeLockManager) (tid key : Nat) : Option (Nat × Nat) :=
  (manager.transactionMap tid).bind (·.intervals.lookup key)

/-- Every tree is laid out. -/
def Trees (manager : AVLTreeLockManager) : Prop :=
  ∀ key info, manager.keyMap key = some info → info.WellFormed

/-- Every tree is laid out and every recorded range can be walked. -/
structure WellFormed (manager : AVLTreeLockManager) : Prop where
  keys : ∀ key info, manager.keyMap key = some info → info.WellFormed
  records : ∀ tid key low high,
    manager.record tid key = some (low, high) → 1 ≤ low ∧ high ≤ uintMax

theorem WellFormed.trees {manager : AVLTreeLockManager} (wellFormed : manager.WellFormed) :
    manager.Trees :=
  wellFormed.keys

theorem wellFormed_empty : empty.WellFormed where
  keys := by simp [empty]
  records := by simp [empty, record]

variable {manager : AVLTreeLockManager} {key : Nat} {info : KeyInfo}

theorem isTimeline_initialTimeline : IsTimeline initialTimeline := by
  obtain ⟨info, -, wellFormed, timelineEq, -⟩ := newKeyInfo_eq
  exact timelineEq ▸ wellFormed.isTimeline

theorem Trees.isTimeline (trees : manager.Trees) (key : Nat) :
    IsTimeline (manager.timeline key) := by
  unfold timeline
  cases present : manager.keyMap key with
  | none => exact isTimeline_initialTimeline
  | some info => exact (trees key info present).isTimeline

theorem WellFormed.isTimeline (wellFormed : manager.WellFormed) (key : Nat) :
    IsTimeline (manager.timeline key) :=
  wellFormed.trees.isTimeline key

theorem timeline_eq (present : manager.keyMap key = some info) :
    manager.timeline key = info.timeline := by
  simp [timeline, present]

theorem eventsAt_eq (present : manager.keyMap key = some info) (tsEnd : Nat) :
    manager.eventsAt key tsEnd = (info.events tsEnd).getD ∅ := by
  simp [eventsAt, present]

theorem timeline_setKeyInfo (other : Nat) :
    (manager.setKeyInfo key info).timeline other =
      if other = key then info.timeline else manager.timeline other := by
  by_cases same : other = key <;>
    simp [timeline, setKeyInfo, same]

theorem eventsAt_setKeyInfo (other tsEnd : Nat) :
    (manager.setKeyInfo key info).eventsAt other tsEnd =
      if other = key then (info.events tsEnd).getD ∅
      else manager.eventsAt other tsEnd := by
  by_cases same : other = key <;>
    simp [eventsAt, setKeyInfo, same]

@[simp]
theorem record_setKeyInfo (tid other : Nat) :
    (manager.setKeyInfo key info).record tid other = manager.record tid other :=
  rfl

theorem Trees.setKeyInfo (trees : manager.Trees) (laid : info.WellFormed) :
    (manager.setKeyInfo key info).Trees := by
  intro other info' present
  simp only [AVLTreeLockManager.setKeyInfo, Function.update_apply] at present
  split at present
  · obtain rfl := Option.some.inj present
    exact laid
  · exact trees other info' present

/-- Two managers that nothing below the level of timelines tells apart. -/
structure SameView (manager manager' : AVLTreeLockManager) : Prop where
  timeline : ∀ key, manager'.timeline key = manager.timeline key
  eventsAt : ∀ key tsEnd, manager'.eventsAt key tsEnd = manager.eventsAt key tsEnd
  transactionMap : manager'.transactionMap = manager.transactionMap

theorem SameView.record {manager' : AVLTreeLockManager}
    (same : SameView manager manager') (tid key : Nat) :
    manager'.record tid key = manager.record tid key := by
  rw [AVLTreeLockManager.record, AVLTreeLockManager.record, same.transactionMap]

theorem SameView.wellFormed {manager' : AVLTreeLockManager}
    (same : SameView manager manager') (wellFormed : manager.WellFormed)
    (trees : manager'.Trees) : manager'.WellFormed :=
  ⟨trees, fun tid key low high recorded =>
    wellFormed.records tid key low high (same.record tid key ▸ recorded)⟩

/-- Constructing a key's tree goes unnoticed. -/
theorem createKeyInfo_trees (trees : manager.Trees) (key : Nat) :
    ∃ manager' info,
      manager.createKeyInfo key = .ok manager' ∧
        manager'.keyMap key = some info ∧ manager'.Trees ∧
        SameView manager manager' ∧
        (manager.keyMap key = some info ∨ manager.keyMap key = none) := by
  unfold createKeyInfo
  cases present : manager.keyMap key with
  | some info =>
      exact ⟨manager, info, rfl, present, trees,
        ⟨fun _ => rfl, fun _ _ => rfl, rfl⟩, .inl rfl⟩
  | none =>
      obtain ⟨info, created, laid, timelineEq, eventsEq⟩ := newKeyInfo_eq
      refine ⟨manager.setKeyInfo key info, info, ?_, ?_,
        trees.setKeyInfo laid, ⟨fun other => ?_, fun other tsEnd => ?_, rfl⟩,
        .inr rfl⟩
      · simp only [created]
        rfl
      · simp [setKeyInfo]
      · rw [timeline_setKeyInfo]
        split
        · next same => rw [same, timeline, present, timelineEq]
        · rfl
      · rw [eventsAt_setKeyInfo]
        split
        · next same => rw [same, eventsAt, present, eventsEq, Option.getD_none]
        · rfl

theorem createKeyInfo_eq (wellFormed : manager.WellFormed) (key : Nat) :
    ∃ manager' info,
      manager.createKeyInfo key = .ok manager' ∧
        manager'.keyMap key = some info ∧ manager'.WellFormed ∧
        SameView manager manager' ∧
        (manager.keyMap key = some info ∨ manager.keyMap key = none) := by
  obtain ⟨manager', info, created, present, trees, same, known⟩ :=
    createKeyInfo_trees wellFormed.trees key
  exact ⟨manager', info, created, present, same.wellFormed wellFormed trees, same, known⟩

theorem record_addTransactionLock (tid key tsStart tsEnd other otherKey : Nat) :
    (manager.addTransactionLock tid key tsStart tsEnd).record other otherKey =
      if other = tid ∧ otherKey = key then
        some (widen (manager.record tid key) tsStart tsEnd)
      else manager.record other otherKey := by
  unfold addTransactionLock record
  by_cases sameTid : other = tid
  · subst sameTid
    by_cases sameKey : otherKey = key
    · subst sameKey
      cases manager.transactionMap other <;> simp
    · cases manager.transactionMap other <;>
        simp [sameKey, Finmap.lookup_insert_of_ne]
  · simp [sameTid]

theorem widen_bounds {recorded : Option (Nat × Nat)} {tsStart tsEnd low high : Nat}
    (old : ∀ low high, recorded = some (low, high) → 1 ≤ low ∧ high ≤ uintMax)
    (positive : 1 ≤ tsStart) (bound : tsEnd ≤ uintMax)
    (widened : widen recorded tsStart tsEnd = (low, high)) :
    1 ≤ low ∧ high ≤ uintMax := by
  cases recorded with
  | none =>
      simp only [widen, Prod.mk.injEq] at widened
      omega
  | some range =>
      obtain ⟨low', high'⟩ := range
      have := old low' high' rfl
      simp only [widen, Prod.mk.injEq] at widened
      grind

end AVLTreeLockManager

end Mvtx.Lock
