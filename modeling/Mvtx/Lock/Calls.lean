import Mvtx.Lib.Run
import Mvtx.Lock.Change

/-!
# Sequences of calls to the lock manager

The calls that a Coordinator causes, in any order and with any arguments,
always return.  Every tree that they leave behind satisfies the whole
representation invariant, and what is frozen stays frozen.
-/

namespace Mvtx.Lock

open Lib Lib.AvlTree Lib.LinkedTree AVLTreeLockManager

/-- A call of one of the four operations. -/
inductive ManagerCall where
  | tryBackwardLock (key tid tsEnd : Nat) (isRead : Bool) (event tsStart : Nat)
  | tryLock (key tid tsStart tsEnd : Nat) (isRead : Bool)
  | freeze (tid : Nat)
  | unlock (tid : Nat)
  deriving DecidableEq, Repr

/-- The state after a call. -/
def ManagerCall.apply (manager : AVLTreeLockManager) :
    ManagerCall → Exec AVLTreeLockManager
  | .tryBackwardLock key tid tsEnd isRead event tsStart =>
      return (← manager.tryBackwardLock key tid tsEnd isRead event tsStart).1
  | .tryLock key tid tsStart tsEnd isRead =>
      return (← manager.tryLock key tid tsStart tsEnd isRead).1
  | .freeze tid => return (← manager.freeze tid).1
  | .unlock tid => return (← manager.unlock tid).1

/--
The calls that Coordinators cause: 64-bit timestamps below `2^64 - 1`, and
`tryLock` for a single timestamp.
-/
def ManagerCall.Coordinated : ManagerCall → Prop
  | .tryBackwardLock _ _ tsEnd _ _ _ => tsEnd < uintMax
  | .tryLock _ _ tsStart tsEnd _ => tsStart = tsEnd ∧ tsEnd < uintMax
  | .freeze _ | .unlock _ => True

instance (call : ManagerCall) : Decidable call.Coordinated := by
  cases call <;> unfold ManagerCall.Coordinated <;> infer_instance

section Effect

variable {manager : AVLTreeLockManager}

/-- What a call does that returns: it locks, gives up, or changes nothing that shows. -/
inductive Effect (manager manager' : AVLTreeLockManager) : Prop where
  | acquired
      {key tid low high : Nat}
      {isRead : Bool}
      (effect : Acquired manager key tid isRead low high manager')
  | refused
      (wellFormed : manager'.WellFormed)
      (same : SameView manager manager')
  | released
      {visit : Interval → Interval × Bool}
      {tid : Nat}
      {events : Finset Nat}
      (lawful : LawfulVisit visit)
      (effect : Released visit manager tid manager' events)

theorem Effect.wellFormed {manager' : AVLTreeLockManager}
    (effect : Effect manager manager') : manager'.WellFormed := by
  cases effect with
  | acquired effect => exact effect.wellFormed
  | refused wellFormed => exact wellFormed
  | released _ effect => exact effect.wellFormed

/-- Every call that Coordinators cause returns. -/
theorem apply_eq (wellFormed : manager.WellFormed) {call : ManagerCall}
    (coordinated : call.Coordinated) :
    ∃ manager', call.apply manager = .ok manager' ∧ Effect manager manager' := by
  cases call with
  | tryBackwardLock key tid tsEnd isRead event tsStart =>
      obtain ⟨manager', stopTs, stop, returned, effect⟩ :=
        tryBackwardLock_eq wellFormed coordinated key tid isRead event tsStart
      refine ⟨manager', ?_, .acquired effect.acquired⟩
      simp only [ManagerCall.apply, returned]
      rfl
  | tryLock key tid tsStart tsEnd isRead =>
      obtain ⟨rfl, bound⟩ := coordinated
      obtain ⟨manager', lock, -, -, ⟨-, returned, wellFormed', same⟩ |
        ⟨pends, -, returned, effect⟩⟩ := tryLock_point wellFormed key bound tid isRead
      · refine ⟨manager', ?_, .refused wellFormed' same⟩
        simp only [ManagerCall.apply, returned]
        rfl
      · refine ⟨manager', ?_, .acquired effect.acquired⟩
        simp only [ManagerCall.apply, returned]
        rfl
  | freeze tid =>
      obtain ⟨manager', events, returned, effect⟩ := freeze_eq wellFormed tid
      refine ⟨manager', ?_, .released (lawfulVisit_freezeVisit tid) effect⟩
      simp only [ManagerCall.apply, returned]
      rfl
  | unlock tid =>
      obtain ⟨manager', events, returned, effect⟩ := unlock_eq wellFormed tid
      refine ⟨manager', ?_, .released (lawfulVisit_unlockVisit tid) effect⟩
      simp only [ManagerCall.apply, returned]
      rfl

theorem run_wellFormed (wellFormed : manager.WellFormed) {calls : List ManagerCall}
    (coordinated : ∀ call ∈ calls, call.Coordinated) :
    ∃ manager', run ManagerCall.apply manager calls = .ok manager' ∧
      manager'.WellFormed :=
  exists_run AVLTreeLockManager.WellFormed calls (fun _ call wellFormed member =>
    (apply_eq wellFormed (coordinated call member)).imp fun _ applied =>
      ⟨applied.1, applied.2.wellFormed⟩) wellFormed

end Effect

/-! ## The representation invariant -/

/--
The tree of a key: its root is the root of a linked tree with consistent
parent links and correct stored heights, balanced and ordered by the starts of
the intervals, which tile all timestamps from the origin on.
-/
structure IntervalTree (info : KeyInfo) (tree : BinaryTree Address) : Prop where
  isRoot : root tree = some info.root
  linked : Sound info.heap.links none tree
  balanced : Balanced tree
  ordered : Ordered (fun node => (info.heap.pub node).startTs) tree
  tiles : Tiles Interval.startTs Interval.endTs 0 (uintMax + 1)
    ((inorder tree).map info.heap.pub)
  origin : ((inorder tree).map info.heap.pub).head? =
    some { status := .freezeWriteLock, startTs := 0, endTs := 0, tids := ∅ }

theorem KeyInfo.WellFormed.intervalTree {info : KeyInfo} (wellFormed : info.WellFormed) :
    ∃ tree, IntervalTree info tree := by
  have laid : Laid info.heap info.root info.nodes := wellFormed
  obtain ⟨tree, stored, order⟩ := laid.stored
  refine ⟨tree, stored.isRoot, stored.sound, stored.balanced, ?_, ?_, ?_⟩
  · rw [ordered_iff, order]
    exact laid.tiles.pairwise_lower
  · rw [order]
    exact wellFormed.isTimeline.tiles
  · rw [order]
    exact wellFormed.isTimeline.origin

/-- Whatever the calls, they return and leave every key with an interval tree. -/
theorem intervalTree_of_run (calls : List ManagerCall)
    (coordinated : ∀ call ∈ calls, call.Coordinated) :
    ∃ manager, run ManagerCall.apply empty calls = .ok manager ∧
      ∀ key info, manager.keyMap key = some info → ∃ tree, IntervalTree info tree := by
  obtain ⟨manager, ran, wellFormed⟩ := run_wellFormed wellFormed_empty coordinated
  exact ⟨manager, ran, fun key info present =>
    (wellFormed.keys key info present).intervalTree⟩

/-- A read, a write lock below it and the end of the reader. -/
theorem intervalTree_of_read_write_unlock :
    ∃ manager, run ManagerCall.apply empty
        [.tryBackwardLock 7 1 9 true 0 0, .tryLock 7 2 5 5 false, .unlock 1] =
          .ok manager ∧
      ∀ key info, manager.keyMap key = some info → ∃ tree, IntervalTree info tree :=
  intervalTree_of_run _ (by decide)

/-! ## Frozen history -/

theorem Effect.covering_of_frozen
    {manager manager' : AVLTreeLockManager} {key ts : Nat} {lock : Interval}
    (effect : Effect manager manager') (wellFormed : manager.WellFormed)
    (covering : manager.covering key ts = some lock)
    (frozen : lock.status.frozen = true) :
    manager'.covering key ts = some lock := by
  cases effect with
  | acquired effect =>
      exact effect.covering wellFormed covering
        (LockStatus.not_lockable_of_frozen frozen)
  | refused _ same =>
      rw [AVLTreeLockManager.covering, same.timeline]
      exact covering
  | released lawful effect =>
      rw [effect.covering lawful wellFormed covering, released_of_frozen lawful frozen]

/-- A frozen interval is still there after any further calls. -/
theorem covering_of_run
    {manager manager' : AVLTreeLockManager} {key ts : Nat} {lock : Interval}
    {calls : List ManagerCall}
    (wellFormed : manager.WellFormed)
    (covering : manager.covering key ts = some lock)
    (frozen : lock.status.frozen = true)
    (coordinated : ∀ call ∈ calls, call.Coordinated)
    (ran : run ManagerCall.apply manager calls = .ok manager') :
    manager'.covering key ts = some lock := by
  obtain ⟨last, ran', -, holds⟩ :=
    exists_run (fun manager : AVLTreeLockManager => manager.WellFormed ∧
        manager.covering key ts = some lock) calls
      (fun state call inv member => by
        obtain ⟨state', applied, effect⟩ := apply_eq inv.1 (coordinated call member)
        exact ⟨state', applied, effect.wellFormed,
          effect.covering_of_frozen inv.1 inv.2 frozen⟩)
      ⟨wellFormed, covering⟩
  rw [ran] at ran'
  obtain rfl : manager' = last := by simpa using ran'
  exact holds

/-- A read over frozen reads down to a frozen write gets all of it. -/
theorem tryBackwardLock_of_frozen
    {manager : AVLTreeLockManager} {key point ts : Nat}
    (wellFormed : manager.WellFormed) (below : point ≤ ts) (bound : ts < uintMax)
    (write : manager.statusAt key point = some .freezeWriteLock)
    (reads : ∀ between, point < between → between ≤ ts →
      manager.statusAt key between = some .freezeReadLock)
    (tid event tsStart : Nat) :
    ∃ manager', manager.tryBackwardLock key tid ts true event tsStart =
      .ok (manager', true, point + 1) := by
  obtain ⟨manager', stopTs, stop, returned, effect⟩ :=
    tryBackwardLock_eq wellFormed bound key tid true event tsStart
  have timeline := wellFormed.isTimeline key
  obtain ⟨frozen, isFrozen, frozenCovers, frozenStatus⟩ :=
    (statusAt_eq_some wellFormed.trees).1 write
  -- The walk does not stop in a frozen read, nor pass the frozen write.
  have atLeast : point ≤ stopTs := by
    by_contra before
    have := effect.passed point (Nat.not_le.1 before) below frozen isFrozen frozenCovers
    simp [frozenStatus, LockStatus.passes] at this
  have atMost : stopTs ≤ point := by
    by_contra after
    obtain ⟨lock, isLock, covers, status⟩ :=
      (statusAt_eq_some wellFormed.trees).1 (reads stopTs (Nat.not_le.1 after) effect.le)
    have same := timeline.cover_unique effect.member isLock effect.covers covers
    have stops := effect.stops
    simp [same, status, LockStatus.passes] at stops
  obtain rfl : stopTs = point := Nat.le_antisymm atMost atLeast
  have same := timeline.cover_unique effect.member isFrozen effect.covers frozenCovers
  refine ⟨manager', ?_⟩
  rw [returned, same, frozenStatus]
  rfl

/--
Frozen history: in every state that calls lead to, further calls leave the
status of a frozen timestamp alone, and a read of a frozen range gets the
same range in every later state.
-/
theorem frozen_history (calls further : List ManagerCall)
    (coordinated : ∀ call ∈ calls ++ further, call.Coordinated) :
    ∃ manager later,
      run ManagerCall.apply empty calls = .ok manager ∧
        run ManagerCall.apply manager further = .ok later ∧
        (∀ key ts status, manager.statusAt key ts = some status →
          status.frozen = true → later.statusAt key ts = some status) ∧
        ∀ key point ts, point ≤ ts → ts < uintMax →
          manager.statusAt key point = some .freezeWriteLock →
          (∀ between, point < between → between ≤ ts →
            manager.statusAt key between = some .freezeReadLock) →
          ∀ tid event tsStart, ∃ manager',
            later.tryBackwardLock key tid ts true event tsStart =
              .ok (manager', true, point + 1) := by
  have before : ∀ call ∈ calls, call.Coordinated :=
    fun call member => coordinated call (List.mem_append_left _ member)
  have after : ∀ call ∈ further, call.Coordinated :=
    fun call member => coordinated call (List.mem_append_right _ member)
  obtain ⟨manager, ran, wellFormed⟩ := run_wellFormed wellFormed_empty before
  obtain ⟨later, ranLater, wellFormedLater⟩ := run_wellFormed wellFormed after
  have kept : ∀ key ts status, manager.statusAt key ts = some status →
      status.frozen = true → later.statusAt key ts = some status := by
    intro key ts status known frozen
    obtain ⟨lock, covering, rfl⟩ := Option.map_eq_some_iff.1 known
    rw [statusAt, covering_of_run wellFormed covering frozen after ranLater]
    rfl
  exact ⟨manager, later, ran, ranLater, kept,
    fun key point ts below bound write reads tid event tsStart =>
      tryBackwardLock_of_frozen wellFormedLater below bound (kept _ _ _ write rfl)
        (fun between above upTo => kept _ _ _ (reads between above upTo) rfl)
        tid event tsStart⟩

/-- Transaction 1 reads and commits, then others read and write around its range. -/
theorem frozen_history_of_read :
    ∃ manager later,
      run ManagerCall.apply empty [.tryBackwardLock 7 1 9 true 0 0, .freeze 1] =
          .ok manager ∧
        run ManagerCall.apply manager
            [.tryBackwardLock 7 2 20 true 1 0, .tryLock 7 3 5 5 false, .unlock 2] =
          .ok later ∧
        (∀ key ts status, manager.statusAt key ts = some status →
          status.frozen = true → later.statusAt key ts = some status) ∧
        ∀ key point ts, point ≤ ts → ts < uintMax →
          manager.statusAt key point = some .freezeWriteLock →
          (∀ between, point < between → between ≤ ts →
            manager.statusAt key between = some .freezeReadLock) →
          ∀ tid event tsStart, ∃ manager',
            later.tryBackwardLock key tid ts true event tsStart =
              .ok (manager', true, point + 1) :=
  frozen_history _ _ (by decide)

end Mvtx.Lock
