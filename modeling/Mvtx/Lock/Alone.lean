import Mvtx.Lock.Holders
import Mvtx.Lock.RangeLock

/-!
# A transaction that is alone

Where nothing is locked, a single transaction reads and writes with a start
timestamp above all others.  `Alone` says what the timelines of the keys are
then: between the last frozen write lock below its start timestamp and this,
every free timestamp of a key that it has read is read locked, and the start
timestamp is write locked for the keys which it has written.
-/

namespace Mvtx.Lock

open Lib AVLTreeLockManager

/-- The last timestamp below a bound at which a key has a frozen write lock. -/
def AVLTreeLockManager.lastFrozen (manager : AVLTreeLockManager) (key bound : Nat) : Nat :=
  Nat.findGreatest (fun ts => manager.statusAt key ts = some .freezeWriteLock) (bound - 1)

/-- Nothing is locked, and everything from a bound on is free. -/
structure AVLTreeLockManager.Idle (manager : AVLTreeLockManager) (bound : Nat) : Prop where
  wellFormed : manager.WellFormed
  unrecorded : ∀ tid key, manager.record tid key = none
  unlocked : ∀ key, ∀ lock ∈ manager.timeline key, lock.status.held = false
  below : ∀ key, ∀ lock ∈ manager.timeline key, lock.status ≠ .free → lock.endTs < bound
  marked : ∀ key ts, manager.eventsAt key ts ≠ ∅ →
    ts < bound ∧ ∃ lock ∈ manager.timeline key, lock.endTs = ts

/-- Whether a transaction alone read locks a timestamp of a key that it reads. -/
def AVLTreeLockManager.Reaches (base : AVLTreeLockManager) (startTs key ts : Nat) : Prop :=
  base.lastFrozen key startTs < ts ∧ ts < startTs ∧ base.statusAt key ts = some .free

instance (base : AVLTreeLockManager) (startTs key ts : Nat) :
    Decidable (base.Reaches startTs key ts) :=
  inferInstanceAs (Decidable (_ ∧ _ ∧ _))

/-- The status of a timestamp after some reads and some writes of a transaction alone. -/
def AVLTreeLockManager.aloneStatus (base : AVLTreeLockManager) (startTs : Nat)
    (reads writes : Finset Nat) (key ts : Nat) : Option LockStatus :=
  if key ∈ writes ∧ ts = startTs then some .writeLock
  else if key ∈ reads ∧ base.Reaches startTs key ts then some .readLock
  else base.statusAt key ts

/-- What a transaction alone has made of an idle lock manager. -/
structure Alone (base manager : AVLTreeLockManager) (tid startTs : Nat)
    (reads writes : Finset Nat) : Prop where
  held : Held (fun _ => True) manager
  eventsAt : ∀ key ts, manager.eventsAt key ts = base.eventsAt key ts
  marked : ∀ key ts, manager.eventsAt key ts ≠ ∅ → ∃ lock ∈ manager.timeline key, lock.endTs = ts
  record : ∀ other key, manager.record other key ≠ none → other = tid
  statusAt : ∀ key ts, ts ≤ uintMax →
    manager.statusAt key ts = base.aloneStatus startTs reads writes key ts

variable {base manager manager' : AVLTreeLockManager} {tid startTs key ts : Nat}
  {reads writes : Finset Nat}

namespace AVLTreeLockManager

theorem statusAt_eq_viewAt (manager : AVLTreeLockManager) (key ts : Nat) :
    manager.statusAt key ts = (manager.viewAt key ts).map (·.1) := by
  simp [statusAt, viewAt, Function.comp_def]

theorem statusAt_of_mem (trees : manager.Trees) {lock : Interval}
    (member : lock ∈ manager.timeline key) (covers : lock.Covers ts) :
    manager.statusAt key ts = some lock.status :=
  (statusAt_eq_some trees).2 ⟨lock, member, covers, rfl⟩

theorem lastFrozen_eq_iff {bound last : Nat} (positive : 1 ≤ bound) (within : last < bound)
    (frozen : manager.statusAt key last = some .freezeWriteLock) :
    manager.lastFrozen key bound = last ↔
      ∀ ts, last < ts → ts < bound → manager.statusAt key ts ≠ some .freezeWriteLock := by
  rw [lastFrozen, Nat.findGreatest_eq_iff]
  constructor
  · rintro ⟨-, -, greatest⟩ ts after before
    exact greatest after (by omega)
  · exact fun greatest => ⟨by omega, fun _ => frozen, fun ts after upTo =>
      greatest ts after (by omega)⟩

namespace Idle

variable {bound : Nat}

theorem statusAt_free (idle : manager.Idle bound) (above : bound ≤ ts) (small : ts ≤ uintMax) :
    manager.statusAt key ts = some .free := by
  obtain ⟨lock, member, covers⟩ := (idle.wellFormed.isTimeline key).exists_cover small
  rw [statusAt_of_mem idle.wellFormed.trees member covers]
  by_contra locked
  have below := idle.below key lock member (by simpa using locked)
  have upTo := covers.2
  omega

theorem mono {bound' : Nat} (idle : manager.Idle bound) (within : bound ≤ bound') :
    manager.Idle bound' where
  wellFormed := idle.wellFormed
  unrecorded := idle.unrecorded
  unlocked := idle.unlocked
  below := fun key lock member locked => (idle.below key lock member locked).trans_le within
  marked := fun key ts registered =>
    (idle.marked key ts registered).imp_left fun before => before.trans_le within

theorem statusAt_not_held (idle : manager.Idle bound) {status : LockStatus}
    (known : manager.statusAt key ts = some status) : status.held = false := by
  obtain ⟨lock, member, -, rfl⟩ := (statusAt_eq_some idle.wellFormed.trees).1 known
  exact idle.unlocked key lock member

end Idle

end AVLTreeLockManager

theorem take_fst (tid : Nat) (isRead : Bool) (status : LockStatus) (tids : Finset Nat) :
    (take tid isRead (status, tids)).1 = if status = .free then lockMode isRead else status := by
  cases status <;> rfl

/-- A lock operation keeps the ends of the intervals. -/
theorem Acquired.marked {low high other : Nat} {isRead : Bool}
    (acquired : Acquired manager other tid isRead low high manager')
    (wellFormed : manager.WellFormed)
    (marked : ∃ lock ∈ manager.timeline key, lock.endTs = ts) :
    ∃ lock ∈ manager'.timeline key, lock.endTs = ts := by
  obtain ⟨lock, member, rfl⟩ := marked
  have ordered := (wellFormed.isTimeline key).ordered member
  obtain ⟨part, covering', change⟩ := acquired.covering_piece wellFormed
    ((covering_eq_some wellFormed.trees).2 ⟨member, ordered.1, Nat.le_refl _⟩)
  obtain ⟨member', covers⟩ := (covering_eq_some acquired.wellFormed.trees).1 covering'
  refine ⟨part, member', ?_⟩
  rcases change with ⟨-, piece⟩ | ⟨-, rfl⟩
  · exact Nat.le_antisymm piece.within.2 covers.2
  · rfl

namespace Alone

theorem refl (idle : base.Idle startTs) : Alone base base tid startTs ∅ ∅ where
  held :=
    { wellFormed := idle.wellFormed
      holder := fun key lock member held => by simp [idle.unlocked key lock member] at held }
  eventsAt := fun _ _ => rfl
  marked := fun key ts registered => (idle.marked key ts registered).2
  record := fun other key recorded => absurd (idle.unrecorded other key) recorded
  statusAt := fun key ts _ => by simp [aloneStatus]

/-- A read finds the last version below the start timestamp. -/
theorem read (alone : Alone base manager tid startTs reads ∅) (idle : base.Idle startTs)
    (positive : 1 ≤ startTs) (bound : startTs ≤ uintMax) (key event : Nat) :
    ∃ manager',
      manager.tryBackwardLock key tid (startTs - 1) true event startTs =
          .ok (manager', true, base.lastFrozen key startTs + 1) ∧
        Alone base manager' tid startTs (insert key reads) ∅ := by
  have wellFormed := alone.held.wellFormed
  obtain ⟨manager', stopTs, stop, returned, backward⟩ :=
    tryBackwardLock_eq wellFormed (show startTs - 1 < uintMax by omega) key tid true event startTs
  have le := backward.le
  have stops := statusAt_of_mem wellFormed.trees backward.member backward.covers
  rw [alone.statusAt key stopTs (by omega)] at stops
  -- Nothing is write locked, so the scan stops at a frozen write lock.
  obtain ⟨status, frozen⟩ : stop.status = .freezeWriteLock ∧
      base.statusAt key stopTs = some .freezeWriteLock := by
    have stops' := backward.stops
    simp only [aloneStatus, Finset.notMem_empty, false_and, if_false] at stops
    split at stops
    · rw [← Option.some.inj stops] at stops'
      exact absurd stops' (by decide)
    · have unlocked := idle.statusAt_not_held stops
      cases status : stop.status <;> simp_all [LockStatus.passes, LockStatus.held]
  have last : base.lastFrozen key startTs = stopTs := by
    refine (lastFrozen_eq_iff positive (by omega) frozen).2 fun ts after before there => ?_
    obtain ⟨lock, member, covers⟩ :=
      (wellFormed.isTimeline key).exists_cover (show ts ≤ uintMax by omega)
    have passes := backward.passed ts after (by omega) lock member covers
    have known := statusAt_of_mem wellFormed.trees member covers
    rw [alone.statusAt key ts (by omega)] at known
    simp only [aloneStatus, Finset.notMem_empty, false_and, if_false, Reaches, there] at known
    rw [if_neg (by simp)] at known
    rw [← Option.some.inj known] at passes
    exact absurd passes (by decide)
  have events : ∀ key' ts, manager'.eventsAt key' ts = manager.eventsAt key' ts := by
    intro key' ts
    rw [backward.eventsAt, if_neg (by simp [status, LockStatus.waits])]
  refine ⟨manager', ?_, ?_⟩
  · rw [returned, last, status]
    rfl
  · refine
      { held := alone.held.acquired backward.acquired (by simp)
        eventsAt := fun key' ts => (events key' ts).trans (alone.eventsAt key' ts)
        marked := fun key' ts registered => ?_
        record := fun other key' recorded => ?_
        statusAt := fun key' ts small => ?_ }
    · rw [events] at registered
      exact backward.acquired.marked wellFormed (alone.marked key' ts registered)
    · rw [backward.record] at recorded
      split at recorded
      · next same => exact same.1
      · exact alone.record other key' recorded
    · rw [statusAt_eq_viewAt, backward.walks.viewAt wellFormed.trees]
      split
      · next inside =>
          obtain ⟨rfl, after, upTo⟩ := inside
          have known := alone.statusAt key' ts small
          obtain ⟨lock, member, covers⟩ := (wellFormed.isTimeline key').exists_cover small
          have view : manager.viewAt key' ts = some (lock.status, lock.tids) := by
            rw [viewAt, (covering_eq_some wellFormed.trees).2 ⟨member, covers⟩]
            rfl
          rw [statusAt_eq_viewAt, view] at known
          simp only [Option.map_some, aloneStatus, Finset.notMem_empty, false_and, if_false]
            at known
          simp only [view, Option.map_some, take_fst, aloneStatus, Finset.notMem_empty, false_and,
            if_false, Finset.mem_insert_self, true_and]
          by_cases free : base.statusAt key' ts = some .free
          · have reaches : base.Reaches startTs key' ts := ⟨last ▸ after, by omega, free⟩
            rw [if_pos reaches]
            split at known
            · rw [Option.some.inj known]
              rfl
            · rw [Option.some.inj (known.trans free)]
              rfl
          · have beyond : ¬ base.Reaches startTs key' ts := fun reaches => free reaches.2.2
            rw [if_neg fun both => beyond both.2] at known
            rw [if_neg beyond, ← known, if_neg]
            rintro same
            exact free (known.symm.trans (congrArg some same))
      · next outside =>
          rw [← statusAt_eq_viewAt, alone.statusAt key' ts small]
          simp only [aloneStatus, Finset.notMem_empty, false_and, if_false]
          refine if_congr ?_ rfl rfl
          rw [Finset.mem_insert]
          constructor
          · exact fun both => ⟨.inr both.1, both.2⟩
          · rintro ⟨rfl | member, reaches⟩
            · refine absurd ⟨rfl, last ▸ reaches.1, ?_⟩ outside
              have below := reaches.2.1
              omega
            · exact ⟨member, reaches⟩

/-- The start timestamp of a key that has not been written is free. -/
theorem statusAt_startTs (alone : Alone base manager tid startTs reads writes)
    (idle : base.Idle startTs) (bound : startTs ≤ uintMax) (key : Nat) :
    manager.statusAt key startTs = some (if key ∈ writes then .writeLock else .free) := by
  rw [alone.statusAt key startTs bound, aloneStatus]
  split
  · next written => rw [if_pos written.1]
  · next unwritten =>
      have absent : key ∉ writes := fun member => unwritten ⟨member, rfl⟩
      rw [if_neg fun both => Nat.lt_irrefl _ both.2.2.1, if_neg absent,
        idle.statusAt_free (Nat.le_refl _) bound]

/-- A key that has been written is write locked, so the second write of it is refused. -/
theorem tryLock_again (alone : Alone base manager tid startTs reads writes)
    (idle : base.Idle startTs) (bound : startTs < uintMax) (written : key ∈ writes) :
    ∃ manager', manager.tryLock key tid startTs startTs false = .ok (manager', false) := by
  have known := alone.statusAt_startTs idle bound.le key
  obtain ⟨manager', lock, member, covers, ⟨-, returned, -⟩ | ⟨pends, visit, -⟩⟩ :=
    tryLock_point alone.held.wellFormed key bound tid false
  · exact ⟨manager', returned⟩
  · rw [statusAt_of_mem alone.held.wellFormed.trees member covers, if_pos written] at known
    simp [searchVisit, Option.some.inj known] at visit

/-- The first write of a key takes its lock. -/
theorem tryLock_first (alone : Alone base manager tid startTs reads writes)
    (idle : base.Idle startTs) (bound : startTs < uintMax) (unwritten : key ∉ writes) :
    ∃ manager', manager.tryLock key tid startTs startTs false = .ok (manager', true) ∧
      Alone base manager' tid startTs reads (insert key writes) := by
  have wellFormed := alone.held.wellFormed
  have known := alone.statusAt_startTs idle bound.le key
  rw [if_neg unwritten] at known
  obtain ⟨manager', lock, member, covers, ⟨visit, -⟩ | ⟨pends, visit, positive, returned, takes⟩⟩ :=
    tryLock_point_trees wellFormed.trees key bound.le tid false
  all_goals
    rw [statusAt_of_mem wellFormed.trees member covers, Option.some.injEq] at known
    simp only [searchVisit, known] at visit
  · exact absurd visit (by simp)
  · obtain rfl : pends = true := by simpa using visit.symm
    have locked := takes.locked wellFormed positive bound.le
    refine ⟨manager', returned,
      { held := alone.held.acquired locked.acquired (by simp)
        eventsAt := fun key' ts => (locked.eventsAt key' ts).trans (alone.eventsAt key' ts)
        marked := fun key' ts registered => ?_
        record := fun other key' recorded => ?_
        statusAt := fun key' ts small => ?_ }⟩
    · rw [locked.eventsAt] at registered
      exact locked.acquired.marked wellFormed (alone.marked key' ts registered)
    · rw [locked.record] at recorded
      split at recorded
      · next same => exact same.1
      · exact alone.record other key' recorded
    · have old := alone.statusAt key' ts small
      by_cases same : key' = key
      · subst same
        obtain ⟨here, member', covers'⟩ := (wellFormed.isTimeline key').exists_cover small
        rw [statusAt_of_mem wellFormed.trees member' covers'] at old
        rw [statusAt_eq_viewAt, takes.viewAt wellFormed.trees
          ((covering_eq_some wellFormed.trees).2 ⟨member', covers'⟩)]
        by_cases isStart : ts = startTs
        · subst isStart
          obtain rfl := (wellFormed.isTimeline key').cover_unique member member' covers covers'
          rw [if_pos ⟨by simp, Nat.le_refl _, Nat.le_refl _⟩, Option.map_some, take_fst, known]
          simp [aloneStatus, lockMode]
        · rw [if_neg fun inside => isStart (by omega), Option.map_some, old]
          simp [aloneStatus, isStart]
      · have elsewhere : manager'.statusAt key' ts = manager.statusAt key' ts := by
          rw [AVLTreeLockManager.statusAt, covering, locked.timeline, if_neg same]
          rfl
        rw [elsewhere, old]
        simp [aloneStatus, same]

/-- Everything that is locked is a holding of the transaction. -/
theorem visited_of_held (alone : Alone base manager tid startTs reads writes)
    {lock : Interval} (member : lock ∈ manager.timeline key) (held : lock.status.held = true) :
    tid ∈ lock.tids ∧ met (manager.record tid key) lock = true := by
  obtain ⟨holder, holds, inside, -⟩ := alone.held.holder key lock member held
  have recorded : manager.record holder key ≠ none := by
    obtain ⟨low, high, known, -⟩ := inside
    simp [known]
  obtain rfl := alone.record holder key recorded
  exact ⟨holds, inside.met ((alone.held.wellFormed.isTimeline key).ordered member).1⟩

/-- What has become of an interval when the transaction has committed. -/
theorem status_released (alone : Alone base manager tid startTs reads writes)
    {lock : Interval} (member : lock ∈ manager.timeline key) :
    (released (freezeVisit tid) (manager.record tid key) lock).status =
      match lock.status with
      | .readLock => .freezeReadLock
      | .writeLock => .freezeWriteLock
      | status => status := by
  by_cases held : lock.status.held = true
  · obtain ⟨holds, isMet⟩ := alone.visited_of_held member held
    rw [released, if_pos isMet]
    cases status : lock.status <;> simp_all [freezeVisit, LockStatus.held]
  · have idle := (lawfulVisit_freezeVisit tid).idle lock
      (fun status => by simp [status, LockStatus.held] at held)
      (fun status => by simp [status, LockStatus.held] at held)
    rw [released, idle, ite_self]
    cases status : lock.status <;> simp_all [LockStatus.held]

/-- Everything that is not free ends by the start timestamp. -/
theorem endTs_le (alone : Alone base manager tid startTs reads writes) (idle : base.Idle startTs)
    {lock : Interval} (member : lock ∈ manager.timeline key) (locked : lock.status ≠ .free) :
    lock.endTs ≤ startTs := by
  have ordered := (alone.held.wellFormed.isTimeline key).ordered member
  have known := statusAt_of_mem alone.held.wellFormed.trees member
    (show lock.Covers lock.endTs from ⟨ordered.1, Nat.le_refl _⟩)
  by_contra above
  rw [alone.statusAt key _ ordered.2, aloneStatus, if_neg fun both => above both.2.le,
    if_neg fun both => above both.2.2.1.le, idle.statusAt_free (by omega) ordered.2] at known
  exact locked (Option.some.inj known).symm

/-- The transaction commits. -/
theorem freeze (alone : Alone base manager tid startTs reads writes) (idle : base.Idle startTs)
    (bound : startTs < uintMax) :
    ∃ manager' events,
      manager.freeze tid = .ok (manager', events) ∧ manager'.Idle (startTs + 1) ∧
        (∀ key ∈ writes, manager'.statusAt key startTs = some .freezeWriteLock) ∧
        ∀ event, event ∈ events ↔
          ∃ key ∈ reads, ∃ ts, base.Reaches startTs key ts ∧ event ∈ base.eventsAt key ts := by
  have wellFormed := alone.held.wellFormed
  have lawful := lawfulVisit_freezeVisit tid
  obtain ⟨manager', events, returned, release⟩ := freeze_eq wellFormed tid
  have ends : ∀ key lock, (released (freezeVisit tid) (manager.record tid key) lock).endTs =
      lock.endTs := fun key lock => lawful.released_endTs _ lock
  have sources : ∀ key, ∀ lock' ∈ manager'.timeline key, ∃ lock ∈ manager.timeline key,
      released (freezeVisit tid) (manager.record tid key) lock = lock' := by
    intro key lock' member
    rw [release.timeline] at member
    exact List.mem_map.1 member
  refine ⟨manager', events, returned, ?_, fun key written => ?_, fun event => ?_⟩
  · refine
      { wellFormed := release.wellFormed
        unrecorded := fun other key => ?_
        unlocked := fun key lock' member => ?_
        below := fun key lock' member locked => ?_
        marked := fun key ts registered => ?_ }
    · rw [release.record]
      split
      · rfl
      · next differs =>
          by_contra recorded
          exact differs (alone.record other key recorded)
    · obtain ⟨lock, old, rfl⟩ := sources key lock' member
      rw [alone.status_released old]
      cases lock.status <;> rfl
    · obtain ⟨lock, old, rfl⟩ := sources key lock' member
      rw [ends]
      refine Nat.lt_succ_of_le (alone.endTs_le idle old fun free => locked ?_)
      rw [alone.status_released old, free]
    · rw [release.eventsAt] at registered
      obtain ⟨lock, member, same⟩ := alone.marked key ts registered
      refine ⟨?_, _, by rw [release.timeline]; exact List.mem_map_of_mem member, by rw [ends, same]⟩
      rw [alone.eventsAt] at registered
      exact (idle.marked key ts registered).1.trans (Nat.lt_succ_self _)
  · obtain ⟨lock, member, covers⟩ := (wellFormed.isTimeline key).exists_cover bound.le
    have known := alone.statusAt_startTs idle bound.le key
    rw [statusAt_of_mem wellFormed.trees member covers, if_pos written, Option.some.injEq] at known
    have covering := release.covering lawful wellFormed
      ((covering_eq_some wellFormed.trees).2 ⟨member, covers⟩)
    rw [AVLTreeLockManager.statusAt, covering, Option.map_some, alone.status_released member, known]
  · rw [release.collected]
    constructor
    · rintro ⟨key, lock, member, -, wakes, registered⟩
      have ordered := (wellFormed.isTimeline key).ordered member
      have known := statusAt_of_mem wellFormed.trees member
        (show lock.Covers lock.endTs from ⟨ordered.1, Nat.le_refl _⟩)
      have held : lock.status.held = true := by
        cases status : lock.status <;> simp_all [freezeVisit, LockStatus.held]
      rw [alone.eventsAt] at registered
      have before := (idle.marked key _ (Finset.ne_empty_of_mem registered)).1
      rw [alone.statusAt key _ ordered.2, aloneStatus, if_neg fun both => before.ne both.2]
        at known
      split at known
      · next both => exact ⟨key, both.1, _, both.2, registered⟩
      · rw [idle.statusAt_not_held known] at held
        exact absurd held (by decide)
    · rintro ⟨key, member, ts, reaches, registered⟩
      rw [← alone.eventsAt] at registered
      obtain ⟨lock, inTimeline, rfl⟩ := alone.marked key ts (Finset.ne_empty_of_mem registered)
      have ordered := (wellFormed.isTimeline key).ordered inTimeline
      have known := alone.statusAt key lock.endTs ordered.2
      rw [statusAt_of_mem wellFormed.trees inTimeline ⟨ordered.1, Nat.le_refl _⟩, aloneStatus,
        if_neg fun both => reaches.2.1.ne both.2, if_pos ⟨member, reaches⟩, Option.some.injEq]
        at known
      obtain ⟨holds, isMet⟩ := alone.visited_of_held inTimeline (by rw [known]; rfl)
      exact ⟨key, lock, inTimeline, isMet, by simp [freezeVisit, known, holds], registered⟩

end Alone

end Mvtx.Lock
