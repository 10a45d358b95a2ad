import Mvtx.Lock.Coverage

/-!
# Holders and blocked events

Two invariants of the lock manager on which the transactions rely.  Whatever is
locked has a holder whose record contains it, so the holder's `freeze` or
`unlock` gets to it.  An event that has met a write lock is registered under
the end of that lock, so whoever gives the lock up collects the event.
-/

namespace Mvtx.Lock

open Lib AVLTreeLockManager

/--
Every lock is recorded by one of its holders; for a write lock by one that
`prepared` is true of.
-/
structure Held (prepared : Nat → Prop) (manager : AVLTreeLockManager) : Prop where
  wellFormed : manager.WellFormed
  holder : ∀ key, ∀ lock ∈ manager.timeline key, lock.status.held = true →
    ∃ tid ∈ lock.tids, Inside (manager.record tid key) lock ∧
      (lock.status = .writeLock → prepared tid)

/-- What `freeze` and `unlock` of a transaction have in common. -/
structure LetsGo (visit : Interval → Interval × Bool) (tid : Nat) : Prop where
  lawful : LawfulVisit visit
  others : ∀ lock, tid ∉ lock.tids → visit lock = (lock, false)
  own : ∀ lock, tid ∈ lock.tids → (visit lock).1.status.held = false
  wakes : ∀ lock, tid ∈ lock.tids → lock.status = .writeLock → (visit lock).2 = true

theorem letsGo_freezeVisit (tid : Nat) : LetsGo (freezeVisit tid) tid where
  lawful := lawfulVisit_freezeVisit tid
  others := by
    intro lock absent
    unfold freezeVisit
    cases status : lock.status <;> simp [absent]
  own := by
    intro lock holder
    unfold freezeVisit
    cases status : lock.status <;> simp [holder, status, LockStatus.held]
  wakes := by
    intro lock holder status
    simp [freezeVisit, status, holder]

theorem letsGo_unlockVisit (tid : Nat) : LetsGo (unlockVisit tid) tid where
  lawful := lawfulVisit_unlockVisit tid
  others := by
    intro lock absent
    unfold unlockVisit
    cases status : lock.status <;> simp [absent]
  own := by
    intro lock holder
    unfold unlockVisit
    cases status : lock.status <;> simp [holder, status, LockStatus.held]
  wakes := by
    intro lock holder status
    simp [unlockVisit, status, holder]

/-- What a `TP2C` calls lets go of all that its transaction has. -/
theorem exists_letsGo {manager manager' : AVLTreeLockManager} {tid : Nat} {vote : Bool}
    {events : Finset Nat} (wellFormed : manager.WellFormed)
    (released : (if vote then manager.freeze tid else manager.unlock tid) =
      .ok (manager', events)) :
    ∃ visit, LetsGo visit tid ∧ Released visit manager tid manager' events := by
  cases vote with
  | true =>
      obtain ⟨manager₁, events₁, returned, release⟩ := freeze_eq wellFormed tid
      rw [if_pos rfl, returned] at released
      obtain ⟨rfl, rfl⟩ := Prod.mk.inj (Except.ok.inj released)
      exact ⟨_, letsGo_freezeVisit tid, release⟩
  | false =>
      obtain ⟨manager₁, events₁, returned, release⟩ := unlock_eq wellFormed tid
      rw [if_neg (by simp), returned] at released
      obtain ⟨rfl, rfl⟩ := Prod.mk.inj (Except.ok.inj released)
      exact ⟨_, letsGo_unlockVisit tid, release⟩

/-- An event is registered under the end of the write lock that a timestamp lies in. -/
def AVLTreeLockManager.Blocked (manager : AVLTreeLockManager) (key ts event : Nat) : Prop :=
  ∃ lock, manager.covering key ts = some lock ∧ lock.status = .writeLock ∧
    event ∈ manager.eventsAt key lock.endTs

variable {prepared prepared' : Nat → Prop} {manager manager' : AVLTreeLockManager}
  {key tid low high : Nat} {isRead : Bool} {visit : Interval → Interval × Bool}
  {events : Finset Nat}

namespace Held

theorem empty : Held prepared AVLTreeLockManager.empty where
  wellFormed := wellFormed_empty
  holder := by
    intro key lock member held
    have member' : lock ∈ initialTimeline := member
    simp only [initialTimeline, List.mem_cons, List.not_mem_nil, or_false] at member'
    rcases member' with rfl | rfl <;> exact absurd held (by decide)

theorem mono (held : Held prepared manager)
    (weaker : ∀ tid, (∃ key, manager.record tid key ≠ none) → prepared tid → prepared' tid) :
    Held prepared' manager where
  wellFormed := held.wellFormed
  holder := by
    intro key lock member locked
    obtain ⟨tid, holds, inside, isPrepared⟩ := held.holder key lock member locked
    have recorded : ∃ key, manager.record tid key ≠ none := by
      obtain ⟨low, high, known, -⟩ := inside
      exact ⟨key, by simp [known]⟩
    exact ⟨tid, holds, inside, fun status => weaker tid recorded (isPrepared status)⟩

theorem sameView (held : Held prepared manager) (same : SameView manager manager')
    (wellFormed : manager'.WellFormed) : Held prepared manager' where
  wellFormed := wellFormed
  holder := by
    intro key lock member locked
    rw [same.timeline] at member
    obtain ⟨tid, holds, inside, isPrepared⟩ := held.holder key lock member locked
    exact ⟨tid, holds, (same.record tid key).symm ▸ inside, isPrepared⟩

/-- Who takes a lock records it, and what is cut stays recorded. -/
theorem acquired (held : Held prepared manager)
    (acquired : Acquired manager key tid isRead low high manager')
    (ready : isRead = false → prepared tid) : Held prepared manager' where
  wellFormed := acquired.wellFormed
  holder := by
    intro other part member locked
    have widened : ∀ holder lock, Inside (manager.record holder other) lock →
        Inside (manager'.record holder other) lock := by
      intro holder lock inside
      rw [acquired.record]
      split
      · next same =>
          obtain ⟨rfl, rfl⟩ := same
          exact inside.widen low high
      · exact inside
    obtain ⟨lock, old, ⟨rfl, piece⟩ | ⟨-, rfl⟩⟩ := acquired.pieces other part member
    · cases piece with
      | same =>
          obtain ⟨holder, holds, inside, isPrepared⟩ := held.holder other part old locked
          exact ⟨holder, holds, widened holder part inside, isPrepared⟩
      | rest lockable status tids starts ends =>
          obtain ⟨holder, holds, inside, isPrepared⟩ :=
            held.holder other lock old (status ▸ locked)
          exact ⟨holder, tids ▸ holds, (widened holder lock inside).part starts ends,
            fun writes => isPrepared (status ▸ writes)⟩
      | locked lockable status tids starts ends =>
          refine ⟨tid, by simp [tids], ?_, fun writes => ready ?_⟩
          · rw [acquired.record, if_pos ⟨rfl, rfl⟩]
            exact .of_range (by omega) (by omega)
          · rw [writes] at status
            cases isRead with
            | false => rfl
            | true => exact absurd status (by simp [lockMode])
    · obtain ⟨holder, holds, inside, isPrepared⟩ := held.holder other part old locked
      exact ⟨holder, holds, widened holder part inside, isPrepared⟩

/-- Who gives up all that is recorded is no longer needed as a holder. -/
theorem released (held : Held prepared manager)
    (release : Released visit manager tid manager' events) (lets : LetsGo visit tid) :
    Held prepared manager' where
  wellFormed := release.wellFormed
  holder := by
    intro key part member locked
    rw [release.timeline] at member
    obtain ⟨lock, old, rfl⟩ := List.mem_map.1 member
    have ordered := (held.wellFormed.isTimeline key).ordered old
    -- Only what has not been visited, or is not the transaction's, is still locked.
    have kept : Lock.released visit (manager.record tid key) lock = lock := by
      unfold Lock.released
      split
      · by_cases holds : tid ∈ lock.tids
        · next met =>
            rw [Lock.released, if_pos met, lets.own lock holds] at locked
            exact absurd locked (by decide)
        · rw [lets.others lock holds]
      · rfl
    rw [kept] at locked ⊢
    obtain ⟨holder, holds, inside, isPrepared⟩ := held.holder key lock old locked
    have differs : holder ≠ tid := by
      rintro rfl
      rw [Lock.released, if_pos (inside.met ordered.1)] at kept
      have own := lets.own lock holds
      rw [kept, locked] at own
      exact absurd own (by decide)
    exact ⟨holder, holds, by rwa [release.record, if_neg differs], isPrepared⟩

end Held

/-! ## Blocked events -/

variable {ts event : Nat}

theorem not_lockable_writeLock : ¬ LockStatus.writeLock.Lockable isRead := by
  simp [LockStatus.Lockable]

theorem Blocked.acquired (blocked : manager.Blocked key ts event)
    (wellFormed : manager.WellFormed) {other : Nat}
    (acquired : Acquired manager other tid isRead low high manager')
    (more : ∀ key ts, manager.eventsAt key ts ⊆ manager'.eventsAt key ts) :
    manager'.Blocked key ts event := by
  obtain ⟨lock, covering, status, registered⟩ := blocked
  exact ⟨lock, acquired.covering wellFormed covering (status ▸ not_lockable_writeLock), status,
    more _ _ registered⟩

/-- An event stays blocked unless its write lock is given up. -/
theorem Blocked.stays (blocked : manager.Blocked key ts event)
    (wellFormed : manager.WellFormed)
    (release : Released visit manager tid manager' events) (lets : LetsGo visit tid) :
    (∃ lock ∈ manager.timeline key, met (manager.record tid key) lock = true ∧
        lock.status = .writeLock ∧ tid ∈ lock.tids ∧ event ∈ manager.eventsAt key lock.endTs) ∨
      manager'.Blocked key ts event := by
  obtain ⟨lock, covering, status, registered⟩ := blocked
  have covering' := release.covering lets.lawful wellFormed covering
  by_cases visited : met (manager.record tid key) lock = true ∧ tid ∈ lock.tids
  · have member := ((covering_eq_some wellFormed.trees).1 covering).1
    exact .inl ⟨lock, member, visited.1, status, visited.2, registered⟩
  · have kept : Lock.released visit (manager.record tid key) lock = lock := by
      unfold Lock.released
      split
      · next isMet => rw [lets.others lock fun holds => visited ⟨isMet, holds⟩]
      · rfl
    rw [kept] at covering'
    exact .inr ⟨lock, covering', status, by rwa [release.eventsAt]⟩

/-- Whoever gives up a write lock collects the events that are blocked at it. -/
theorem Blocked.released (blocked : manager.Blocked key ts event)
    (wellFormed : manager.WellFormed)
    (release : Released visit manager tid manager' events) (lets : LetsGo visit tid) :
    event ∈ events ∨ manager'.Blocked key ts event := by
  refine (Blocked.stays blocked wellFormed release lets).imp_left ?_
  rintro ⟨lock, member, isMet, status, holds, registered⟩
  exact (release.collected event).2
    ⟨key, lock, member, isMet, lets.wakes lock holds status, registered⟩

end Mvtx.Lock
