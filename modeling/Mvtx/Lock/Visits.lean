import Mvtx.Lock.Search

/-!
# What the search of tryLock visits

The search jumps from an interval to `ts_start - 1`, and so does not come to
the intervals of the range which lie in the left subtree of another interval
of the range.  It visits all others, and where the interval that starts with
the range is among those it misses, it ends at the one below the range.
-/

namespace Mvtx.Lock

open Lib Lib.AvlTree Lib.LinkedTree AVLTreeLockNode AVLTreeLockManager

/-! ## What is visited and what is hidden -/

/-- The nodes of the left subtree of a node. -/
def KeyInfo.leftOf (info : KeyInfo) (node : Address) : List Address :=
  walk info.heap.fuel info.heap.links (info.heap.links node).left

/-- A node lies in the left subtree of one that starts at the timestamp or below it. -/
def KeyInfo.Hides (info : KeyInfo) (tsEnd : Nat) (node : Address) : Prop :=
  ∃ upper ∈ info.nodes, (info.heap.pub upper).startTs ≤ tsEnd ∧ node ∈ info.leftOf upper

namespace AVLTreeLockManager

/-- The intervals that the search of a call visits unless one of them refuses. -/
def Visits (manager : AVLTreeLockManager) (key tsStart tsEnd : Nat) (lock : Interval) :
    Prop :=
  ∃ manager' info locks, manager.createKeyInfo key = .ok manager' ∧
    manager'.keyMap key = some info ∧
    find info.heap.fuel info.heap [] info.root tsEnd = .ok locks ∧
    ∃ node, Probes info.heap tsStart locks info.nodes node ∧ info.heap.pub node = lock

/-- The intervals of a range. -/
def InRange (manager : AVLTreeLockManager) (key tsStart tsEnd : Nat) (lock : Interval) :
    Prop :=
  lock ∈ manager.timeline key ∧ lock.startTs ≤ tsEnd ∧ tsStart ≤ lock.endTs

/--
The intervals that start in a range and lie, in the tree of the key, in the
left subtree of another interval which starts at the end of the range or below.
-/
def Hidden (manager : AVLTreeLockManager) (key tsStart tsEnd : Nat) (lock : Interval) :
    Prop :=
  ∃ info, manager.keyMap key = some info ∧ ∃ node ∈ info.nodes, info.Hides tsEnd node ∧
    info.heap.pub node = lock ∧ tsStart ≤ lock.startTs ∧ lock.startTs ≤ tsEnd

/-- The interval that starts with a range is hidden. -/
def StartHidden (manager : AVLTreeLockManager) (key tsStart tsEnd : Nat) : Prop :=
  ∃ lock, manager.Hidden key tsStart tsEnd lock ∧ lock.startTs = tsStart

end AVLTreeLockManager

theorem passes_iff_searchVisit {isRead : Bool} {lock : Interval} :
    lock.status.passes isRead = true ↔ searchVisit isRead lock ≠ none := by
  unfold searchVisit
  cases lock.status <;> cases isRead <;> simp [LockStatus.passes]

/-! ## What is on the stack -/

theorem KeyInfo.leftOf_eq {info : KeyInfo} {node : Address} {parent : Option Address}
    {left : BinaryTree Address} (link : (info.heap.links node).left = LinkedTree.root left)
    (stored : Sound info.heap.links parent left)
    (short : (inorder left).length ≤ info.heap.fuel) : info.leftOf node = inorder left := by
  rw [leftOf, link]
  exact Lock.walk_eq stored ((height_le_length_inorder left).trans short)

section Stack

variable {info : KeyInfo} {tsEnd : Nat} {before above locks : List Address} {hit : Address}
  (laid : Laid info.heap info.root (before ++ hit :: above))
  (order : info.nodes = before ++ hit :: above)
  (covers : (info.heap.pub hit).Covers tsEnd)

include laid order covers

/-- The nodes up to the one that a search finds are those that start there or below. -/
theorem mem_upTo_iff (node : Address) :
    node ∈ before ++ [hit] ↔
      node ∈ info.nodes ∧ (info.heap.pub node).startTs ≤ tsEnd := by
  obtain ⟨earlier, later⟩ := laid.around covers
  rw [order]
  simp only [List.mem_append, List.mem_cons, List.not_mem_nil, or_false]
  constructor
  · rintro (isBefore | rfl)
    · exact ⟨.inl isBefore, (earlier node isBefore).1⟩
    · exact ⟨.inr (.inl rfl), covers.1⟩
  · rintro ⟨isBefore | rfl | isAbove, starts⟩
    · exact .inl isBefore
    · exact .inr rfl
    · exact absurd (later node isAbove) (Nat.not_lt.2 starts)

/-- A search pushes the nodes that no other node up to its end has on its left. -/
theorem mem_stack_iff (pending : Pending info.heap.links locks (before ++ [hit]))
    (node : Address) :
    node ∈ locks ↔ node ∈ info.nodes ∧ (info.heap.pub node).startTs ≤ tsEnd ∧
      ¬ info.Hides tsEnd node := by
  have upTo := mem_upTo_iff laid order covers
  have short := laid.length_lt_fuel
  have nodup : (before ++ [hit]).Nodup := laid.nodup.sublist (by simp)
  simp only [List.length_append, List.length_cons] at short
  constructor
  · intro onStack
    obtain ⟨member, starts⟩ := (upTo node).1 (pending.mem onStack)
    refine ⟨member, starts, ?_⟩
    rintro ⟨upper, isUpper, low, isLeft⟩
    obtain ⟨left, link, stored, sublist, passed⟩ :=
      pending.left_passed nodup ((upTo upper).2 ⟨isUpper, low⟩)
    have few := sublist.length_le
    simp only [List.length_append, List.length_singleton] at few
    rw [KeyInfo.leftOf_eq link stored (by omega)] at isLeft
    exact passed node isLeft onStack
  · rintro ⟨member, starts, shown⟩
    by_contra passed
    have isUpTo := (upTo node).2 ⟨member, starts⟩
    obtain ⟨upper, onStack, left, link, stored, sublist, isLeft⟩ :=
      pending.exists_upper isUpTo passed
    obtain ⟨isUpper, low⟩ := (upTo upper).1 (pending.mem onStack)
    have few := sublist.length_le
    simp only [List.length_append, List.length_singleton] at few
    exact shown ⟨upper, isUpper, low, by rwa [KeyInfo.leftOf_eq link stored (by omega)]⟩

end Stack

/-- Nothing is hidden in the tree of a new key. -/
theorem not_hides_of_new {info : KeyInfo} (created : newKeyInfo = .ok info) (tsEnd : Nat)
    (node : Address) : ¬ info.Hides tsEnd node := by
  have facts : newKeyInfo.map (fun info => info.nodes.map info.leftOf) = .ok [[], []] := rfl
  simp only [created, Except.map, Except.ok.injEq] at facts
  rintro ⟨upper, isUpper, -, isLeft⟩
  have empty : info.leftOf upper ∈ [[], []] := facts ▸ List.mem_map_of_mem isUpper
  simp only [List.mem_cons, List.not_mem_nil, or_false, or_self] at empty
  simp [empty] at isLeft

theorem hidden_iff {manager manager₁ : AVLTreeLockManager} {key tsStart tsEnd : Nat}
    {info : KeyInfo} {lock : Interval} (created : manager.createKeyInfo key = .ok manager₁)
    (present : manager₁.keyMap key = some info) :
    manager.Hidden key tsStart tsEnd lock ↔ ∃ node ∈ info.nodes,
      info.Hides tsEnd node ∧ info.heap.pub node = lock ∧
        tsStart ≤ lock.startTs ∧ lock.startTs ≤ tsEnd := by
  unfold createKeyInfo at created
  unfold Hidden
  cases known : manager.keyMap key with
  | some old =>
      rw [known] at created
      cases created
      obtain rfl : old = info := by simpa [known] using present
      simp
  | none =>
      rw [known] at created
      cases isNew : newKeyInfo with
      | error fault => simp [isNew, bind, Except.bind] at created
      | ok fresh =>
          simp only [isNew, bind, Except.bind, pure, Except.pure, Except.ok.injEq] at created
          subst created
          obtain rfl : fresh = info := by simpa using present
          simp [not_hides_of_new isNew]

/-! ## The search of a call -/

/-- A visit that starts at the timestamp or below it is the last one. -/
theorem Examines.last_of_low {heap : NodeHeap} {tsStart : Nat} {isRead : Bool}
    {locks first rest : List Address} {node : Address}
    (examines : Examines heap tsStart isRead locks (first ++ node :: rest))
    (low : (heap.pub node).startTs ≤ tsStart) : rest = [] := by
  generalize whole : first ++ node :: rest = examined at examines
  induction examines generalizing first with
  | exhausted => simp at whole
  | refused | reached =>
      cases first with
      | nil => exact (List.cons.inj whole).2
      | cons head first => simp at whole
  | goesOn visit high found later ih =>
      cases first with
      | nil =>
          obtain ⟨rfl, -⟩ := List.cons.inj whole
          exact absurd low (by omega)
      | cons head first => exact ih (List.cons.inj whole).2

/-- The nodes that a call locks if nothing that it visits refuses. -/
theorem mem_lockable {heap : NodeHeap} {isRead : Bool} {examined : List Address}
    {node : Address} :
    node ∈ examined.filter (fun node => searchVisit isRead (heap.pub node) = some true) ↔
      node ∈ examined ∧ (heap.pub node).status.Lockable isRead := by
  simp [searchVisit_eq_some_true]

/-- The search of a call, and what it visits. -/
structure Searched (manager manager₁ : AVLTreeLockManager) (key tsStart tsEnd : Nat)
    (isRead : Bool) (info : KeyInfo) (locks examined : List Address) : Prop where
  created : manager.createKeyInfo key = .ok manager₁
  present : manager₁.keyMap key = some info
  trees : manager₁.Trees
  same : SameView manager manager₁
  found : find info.heap.fuel info.heap [] info.root tsEnd = .ok locks
  examines : Examines info.heap tsStart isRead locks examined
  nodup : examined.Nodup
  sound : ∀ node ∈ examined, Probes info.heap tsStart locks info.nodes node
  complete : (∀ node ∈ examined, searchVisit isRead (info.heap.pub node) ≠ none) →
    ∀ node, Probes info.heap tsStart locks info.nodes node → node ∈ examined
  bounds : ∀ node, Probes info.heap tsStart locks info.nodes node →
    node ∈ info.nodes ∧ (info.heap.pub node).startTs ≤ tsEnd ∧
      (tsStart ≤ (info.heap.pub node).endTs ∨
        (info.heap.pub node).Covers (tsStart - 1))
  short : examined.length < info.heap.fuel
  stacked : ∀ node, node ∈ locks ↔ node ∈ info.nodes ∧
    (info.heap.pub node).startTs ≤ tsEnd ∧ ¬ info.Hides tsEnd node
  hidden : ∀ lock, manager.Hidden key tsStart tsEnd lock ↔ ∃ node ∈ info.nodes,
    info.Hides tsEnd node ∧ info.heap.pub node = lock ∧
      tsStart ≤ lock.startTs ∧ lock.startTs ≤ tsEnd

variable {manager : AVLTreeLockManager} {key tid tsStart tsEnd : Nat} {isRead : Bool}

theorem exists_searched (trees : manager.Trees) (key : Nat)
    (positive : 1 ≤ tsStart) (ordered : tsStart ≤ tsEnd) (bound : tsEnd ≤ uintMax)
    (isRead : Bool) :
    ∃ manager₁ info locks examined,
      Searched manager manager₁ key tsStart tsEnd isRead info locks examined := by
  obtain ⟨manager₁, info, created, present, trees₁, same, -⟩ :=
    createKeyInfo_trees trees key
  have laid : Laid info.heap info.root info.nodes := trees₁ key info present
  obtain ⟨before, hit, above, order, covers⟩ := laid.exists_cover bound
  have short := laid.length_lt_fuel
  rw [order] at laid short
  simp only [List.length_append, List.length_cons] at short
  obtain ⟨locks, found, pending⟩ := laid.find_root covers
  have stacked := mem_stack_iff laid order covers pending
  obtain ⟨-, -, -, rest, -, rfl, -, -, -⟩ := pending.exists_top
  obtain ⟨examined, examines, distinct, within, sound, complete⟩ :=
    exists_examines isRead laid.tiles pending positive (by have := covers.2; omega)
      (by omega)
  rw [← order] at sound complete
  have few : examined.length ≤ (before ++ [hit]).length :=
    (List.subperm_of_subset distinct within).length_le
  refine ⟨manager₁, info, hit :: rest, examined, created, present, trees₁, same, found,
    examines, distinct, sound, complete, ?_, ?_, stacked, ?_⟩
  · rintro node (⟨member, starts⟩ | ⟨-, member, covers'⟩)
    · have inPart := pending.mem member
      have inNodes : node ∈ before ++ hit :: above := by
        simp only [List.mem_append, List.mem_cons, List.not_mem_nil, or_false] at inPart ⊢
        tauto
      have ordered' := laid.end_le inNodes
      refine ⟨order ▸ inNodes, ?_, .inl (by omega)⟩
      rcases List.mem_append.1 inPart with isBefore | isHit
      · exact ((laid.around covers).1 node isBefore).1
      · obtain rfl := List.mem_singleton.1 isHit
        exact covers.1
    · have := covers'.1
      exact ⟨member, by omega, .inr covers'⟩
  · simp only [List.length_append, List.length_cons, List.length_nil] at few
    omega
  · exact fun _ => hidden_iff created present

namespace Searched

variable {manager₁ : AVLTreeLockManager} {info : KeyInfo} {locks examined : List Address}
  (searched : Searched manager manager₁ key tsStart tsEnd isRead info locks examined)

include searched

theorem visits_iff {lock : Interval} :
    manager.Visits key tsStart tsEnd lock ↔
      ∃ node, Probes info.heap tsStart locks info.nodes node ∧
        info.heap.pub node = lock := by
  constructor
  · rintro ⟨manager', info', locks', created, present, found, rest⟩
    obtain rfl : manager' = manager₁ := by
      simpa [searched.created] using created.symm
    obtain rfl : info' = info := by
      simpa [searched.present] using present.symm
    obtain rfl : locks' = locks := by
      simpa [searched.found] using found.symm
    exact rest
  · rintro ⟨node, probe, pub⟩
    exact ⟨manager₁, info, locks, searched.created, searched.present, searched.found, node,
      probe, pub⟩

/-- Nothing that would be visited refuses if nothing that is visited does. -/
theorem all_pass_iff :
    (∀ lock, manager.Visits key tsStart tsEnd lock → lock.status.passes isRead = true) ↔
      ∀ node ∈ examined, searchVisit isRead (info.heap.pub node) ≠ none := by
  constructor
  · intro pass node member
    exact passes_iff_searchVisit.1
      (pass _ (searched.visits_iff.2 ⟨node, searched.sound node member, rfl⟩))
  · intro pass lock visited
    obtain ⟨node, probe, rfl⟩ := searched.visits_iff.1 visited
    exact passes_iff_searchVisit.2 (pass node (searched.complete pass node probe))

theorem timeline : manager.timeline key = info.nodes.map info.heap.pub := by
  rw [← searched.same.timeline, timeline_eq searched.present, KeyInfo.timeline]

theorem laid : Laid info.heap info.root info.nodes :=
  searched.trees key info searched.present

theorem searchLoop_eq :
    searchLoop info.heap tsStart isRead info.heap.fuel locks [] =
      .ok (gathered info.heap isRead examined) := by
  rw [searched.examines.searchLoop_eq [] searched.short]
  simp

/-- A visited interval that refuses makes the call fail without a trace. -/
theorem tryLock_of_refusal
    (refused : ¬ ∀ node ∈ examined, searchVisit isRead (info.heap.pub node) ≠ none)
    (tid : Nat) :
    manager.tryLock key tid tsStart tsEnd isRead = .ok (manager₁, false) := by
  unfold tryLock
  rw [searched.created]
  simp only [bind, Except.bind, searched.present, deref, searched.found,
    searched.searchLoop_eq, gathered, if_neg refused]
  rfl

theorem tryLock_of_pass
    (pass : ∀ node ∈ examined, searchVisit isRead (info.heap.pub node) ≠ none)
    {heap : NodeHeap} {rootPtr : Address}
    (locked : lockNodes tid tsStart tsEnd isRead
      (examined.filter fun node => searchVisit isRead (info.heap.pub node) = some true)
      info.heap info.root = .ok (heap, rootPtr)) :
    manager.tryLock key tid tsStart tsEnd isRead =
      .ok ((manager₁.addTransactionLock tid key tsStart tsEnd).setKeyInfo key
        { info with root := rootPtr, heap := heap }, true) := by
  unfold tryLock
  rw [searched.created]
  simp only [bind, Except.bind, searched.present, deref, searched.found,
    searched.searchLoop_eq, gathered, if_pos pass, locked]
  rfl

/-- An interval of the tree is hidden if its node is. -/
theorem hidden_pub_iff {node : Address} (member : node ∈ info.nodes) :
    manager.Hidden key tsStart tsEnd (info.heap.pub node) ↔
      info.Hides tsEnd node ∧ tsStart ≤ (info.heap.pub node).startTs ∧
        (info.heap.pub node).startTs ≤ tsEnd := by
  rw [searched.hidden]
  constructor
  · rintro ⟨other, member', hides, same, starts⟩
    obtain rfl := searched.laid.pub_injective member' member same
    exact ⟨hides, starts⟩
  · rintro ⟨hides, starts⟩
    exact ⟨node, member, hides, rfl, starts⟩

/-- What starts with the range is not on the stack if it is hidden. -/
theorem startTs_ne_of_startHidden (hidden : manager.StartHidden key tsStart tsEnd) :
    ∀ other ∈ locks, (info.heap.pub other).startTs ≠ tsStart := by
  intro other onStack starts
  obtain ⟨lock, isHidden, starts'⟩ := hidden
  obtain ⟨node, member, hides, rfl, -, -⟩ := (searched.hidden lock).1 isHidden
  obtain ⟨member', -, shown⟩ := (searched.stacked other).1 onStack
  have ends := (searched.laid.end_le member).1
  have ends' := (searched.laid.end_le member').1
  obtain rfl := searched.laid.tiles.cover_unique tsStart member' member
    ⟨by omega, by omega⟩ ⟨by omega, by omega⟩
  exact shown hides

/--
The search visits the intervals of the range that are not hidden and, if the
one that starts with the range is, the one that ends right below.
-/
theorem visits_iff_shown (trees : manager.Trees) (positive : 1 ≤ tsStart)
    (ordered : tsStart ≤ tsEnd) (bound : tsEnd ≤ uintMax) (lock : Interval) :
    manager.Visits key tsStart tsEnd lock ↔
      manager.InRange key tsStart tsEnd lock ∧ ¬ manager.Hidden key tsStart tsEnd lock ∨
        manager.StartHidden key tsStart tsEnd ∧
          manager.covering key (tsStart - 1) = some lock := by
  have laid := searched.laid
  rw [searched.visits_iff, covering_eq_some trees]
  unfold InRange
  rw [searched.timeline]
  constructor
  · rintro ⟨node, ⟨onStack, high⟩ | ⟨none, member, covers⟩, rfl⟩
    · obtain ⟨member, starts, shown⟩ := (searched.stacked node).1 onStack
      have ends := (laid.end_le member).1
      exact .inl ⟨⟨List.mem_map_of_mem member, starts, by omega⟩,
        fun hidden => shown ((searched.hidden_pub_iff member).1 hidden).1⟩
    · obtain ⟨starts, ends⟩ := covers
      by_cases reaches : tsStart ≤ (info.heap.pub node).endTs
      · refine .inl ⟨⟨List.mem_map_of_mem member, by omega, reaches⟩, fun hidden => ?_⟩
        have := ((searched.hidden_pub_iff member).1 hidden).2.1
        omega
      · -- The node that starts with the range is not on the stack.
        obtain ⟨before, first, above, order, covers'⟩ :=
          laid.exists_cover (show tsStart ≤ uintMax by omega)
        obtain ⟨starts', ends'⟩ := covers'
        have isFirst : first ∈ info.nodes := by simp [order]
        have atStart : (info.heap.pub first).startTs = tsStart := by
          by_contra different
          obtain rfl := laid.tiles.cover_unique (tsStart - 1) isFirst member
            ⟨by omega, by omega⟩ ⟨starts, ends⟩
          exact reaches ends'
        have hides : info.Hides tsEnd first := by
          by_contra shown
          exact none first ((searched.stacked first).2 ⟨isFirst, by omega, shown⟩) atStart
        have hidden := (searched.hidden_pub_iff isFirst).2 ⟨hides, by omega, by omega⟩
        exact .inr ⟨⟨_, hidden, atStart⟩, List.mem_map_of_mem member, starts, ends⟩
  · rintro (⟨⟨isInterval, starts, ends⟩, shown⟩ | ⟨hidden, isInterval, covers⟩)
    · obtain ⟨node, member, rfl⟩ := List.mem_map.1 isInterval
      refine ⟨node, ?_, rfl⟩
      by_cases high : tsStart ≤ (info.heap.pub node).startTs
      · exact .inl ⟨(searched.stacked node).2 ⟨member, starts, fun hides =>
          shown ((searched.hidden_pub_iff member).2 ⟨hides, high, starts⟩)⟩, high⟩
      · refine .inr ⟨fun other onStack atStart => ?_, member, by omega, by omega⟩
        have member' := ((searched.stacked other).1 onStack).1
        have ends' := (laid.end_le member').1
        obtain rfl := laid.tiles.cover_unique tsStart member' member
          ⟨by omega, by omega⟩ ⟨by omega, ends⟩
        omega
    · obtain ⟨node, member, rfl⟩ := List.mem_map.1 isInterval
      exact ⟨node, .inr ⟨searched.startTs_ne_of_startHidden hidden, member, covers⟩, rfl⟩

end Searched

end Mvtx.Lock
