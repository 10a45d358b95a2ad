import Mvtx.Lock.Pointwise

/-!
# Read locks commute

Two backward read locks on the same key can be taken in either order.  Each
scan stops where it would have stopped without the other, since a read lock
gives no other reader a reason to stop.  The pieces into which the two calls
cut an interval are the same, as are their holders, although the trees that
hold them may differ.
-/

namespace Mvtx.Lock

open Lib AVLTreeLockManager

/-! ## The pieces of one interval -/

section Pieces

variable {status : LockStatus} {starts ends : Nat} {tids : Finset Nat}

/-- What a read makes of an interval that it can take and in which it does not stop. -/
theorem backwardPieces_of_readable {tid stopTs tsEnd : Nat}
    (lockable : status = .free ∨ status = .readLock)
    (ordered : starts ≤ ends) (le : stopTs ≤ tsEnd)
    (away : stopTs < starts ∨ ends < stopTs) :
    backwardPieces tid true stopTs tsEnd ⟨status, starts, ends, tids⟩ =
      if stopTs < starts ∧ starts ≤ tsEnd then
        if tsEnd < ends then
          [⟨.readLock, starts, tsEnd, insert tid tids⟩, ⟨status, tsEnd + 1, ends, tids⟩]
        else [⟨.readLock, starts, ends, insert tid tids⟩]
      else [⟨status, starts, ends, tids⟩] := by
  have lockable' : ∀ low high, (Interval.mk status low high tids).status.Lockable true :=
    fun _ _ => lockable.imp id fun read => ⟨read, rfl⟩
  have passes : status.passes true = true ∧ status.frozen = false := by
    rcases lockable with rfl | rfl <;> exact ⟨rfl, rfl⟩
  by_cases reached : stopTs < starts ∧ starts ≤ tsEnd
  · rw [if_pos reached]
    by_cases longer : tsEnd < ends
    · have splits : splitsAt true ⟨status, starts, ends, tids⟩ tsEnd = true :=
        splitsAt_eq.2 ⟨passes.1, passes.2, longer⟩
      rw [if_pos longer, backwardPieces, entryPieces, if_pos ⟨reached.2, splits⟩]
      simp only [List.map_cons, List.map_nil]
      rw [if_pos ⟨reached.1, Nat.le_refl _⟩, if_neg (by omega),
        claim_of_lockable (lockable' starts tsEnd)]
      rfl
    · have whole : ¬ (starts ≤ tsEnd ∧
          splitsAt true ⟨status, starts, ends, tids⟩ tsEnd = true) :=
        fun cut => longer (splitsAt_eq.1 cut.2).2.2
      rw [if_neg longer, backwardPieces_of_whole whole,
        if_pos ⟨reached.1, Nat.not_lt.1 longer⟩, claim_of_lockable (lockable' starts ends)]
      rfl
  · have whole : ¬ (starts ≤ tsEnd ∧
        splitsAt true ⟨status, starts, ends, tids⟩ tsEnd = true) := by
      rintro ⟨before, splits⟩
      have longer : tsEnd < ends := (splitsAt_eq.1 splits).2.2
      omega
    rw [if_neg reached, backwardPieces_of_whole whole, if_neg (by simp only; omega)]

variable {tid₁ tid₂ stop₁ stop₂ end₁ end₂ : Nat}

/-- Two reads cut and mark an interval in the same way in either order. -/
theorem backwardPieces_comm {lock : Interval}
    (ordered : lock.startTs ≤ lock.endTs) (le₁ : stop₁ ≤ end₁) (le₂ : stop₂ ≤ end₂)
    (away : lock.status.Lockable true → ¬ lock.Covers stop₁ ∧ ¬ lock.Covers stop₂) :
    (backwardPieces tid₁ true stop₁ end₁ lock).flatMap
        (backwardPieces tid₂ true stop₂ end₂) =
      (backwardPieces tid₂ true stop₂ end₂ lock).flatMap
        (backwardPieces tid₁ true stop₁ end₁) := by
  by_cases lockable : lock.status.Lockable true
  · obtain ⟨away₁, away₂⟩ := away lockable
    obtain ⟨status, starts, ends, tids⟩ := lock
    simp only [Interval.Covers] at ordered away₁ away₂
    have lockable' : status = .free ∨ status = .readLock := lockable.imp id (·.1)
    rw [backwardPieces_of_readable lockable' ordered le₁ (by omega),
      backwardPieces_of_readable lockable' ordered le₂ (by omega)]
    split_ifs <;>
      simp only [List.flatMap_cons, List.flatMap_nil, List.append_nil] <;>
      simp (disch := first | omega | assumption | exact .inr rfl) only
        [backwardPieces_of_readable] <;>
      split_ifs <;>
      first
        | omega
        | (simp [Finset.insert_comm]; done)
        -- Both reads end at the same timestamp.
        | (obtain rfl : end₁ = end₂ := by omega
           simp [Finset.insert_comm])
  · simp only [backwardPieces_of_not_lockable lockable, List.flatMap_cons,
      List.flatMap_nil]

end Pieces

/-! ## Where a scan stops after another one -/

/-- A read lock on an interval does not stop another reader. -/
theorem Piece.passes {tid low high : Nat} {lock part : Interval}
    (piece : Piece tid true low high lock part)
    (passes : lock.status.passes true = true) : part.status.passes true = true := by
  cases piece with
  | same => exact passes
  | rest _ status => rwa [status]
  | locked _ status => rw [status]; rfl

theorem LockStatus.not_lockable_of_not_passes {status : LockStatus} {isRead : Bool}
    (stops : status.passes isRead = false) : ¬ status.Lockable isRead := by
  cases status <;> cases isRead <;> simp_all [LockStatus.passes, LockStatus.Lockable]

/-- The interval in which a scan stops is determined by the timeline. -/
theorem Backward.stop_unique
    {manager manager' : AVLTreeLockManager} {key tid tsEnd event stopTs point : Nat}
    {isRead : Bool} {stop lock : Interval}
    (wellFormed : manager.WellFormed)
    (backward : Backward manager key tid tsEnd isRead event stopTs stop manager')
    (member : lock ∈ manager.timeline key) (covers : lock.Covers point)
    (stops : lock.status.passes isRead = false) (le : point ≤ tsEnd)
    (passed : ∀ ts, point < ts → ts ≤ tsEnd → ∀ lock ∈ manager.timeline key,
      lock.Covers ts → lock.status.passes isRead = true) :
    stopTs = point ∧ stop = lock := by
  have notBelow : ¬ stopTs < point := fun below => by
    rw [backward.passed point below le lock member covers] at stops
    exact absurd stops (by decide)
  have notAbove : ¬ point < stopTs := fun above => by
    have passes := passed stopTs above backward.le stop backward.member backward.covers
    rw [backward.stops] at passes
    exact absurd passes (by decide)
  obtain rfl : stopTs = point := by omega
  exact ⟨rfl, (wellFormed.isTimeline key).cover_unique backward.member member
    backward.covers covers⟩

variable {manager manager₁ manager₂ manager' : AVLTreeLockManager}
  {key tid₁ tid₂ end₁ end₂ event₁ event₂ stop₁ stop₂ stop' : Nat}
  {lock₁ lock₂ lock' : Interval}

/-- After another read, a read stops where it would have stopped before it. -/
theorem Backward.stop_after
    (first : Backward manager key tid₁ end₁ true event₁ stop₁ lock₁ manager₁)
    (alone : Backward manager key tid₂ end₂ true event₂ stop₂ lock₂ manager₂)
    (second : Backward manager₁ key tid₂ end₂ true event₂ stop' lock' manager') :
    stop' = stop₂ ∧ lock' = lock₂ := by
  have acquired := first.acquired
  refine second.stop_unique first.wellFormed ?_ alone.covers alone.stops alone.le ?_
  · exact acquired.kept key lock₂ alone.member
      (LockStatus.not_lockable_of_not_passes alone.stops)
  · intro ts after upTo part member covers
    obtain ⟨lock, old, ⟨-, piece⟩ | ⟨different, -⟩⟩ := acquired.pieces key part member
    · obtain ⟨starts, ends⟩ := piece.within
      exact piece.passes (alone.passed ts after upTo lock old
        ⟨Nat.le_trans starts covers.1, Nat.le_trans covers.2 ends⟩)
    · exact absurd rfl different

/-! ## Both orders -/

/-- What two managers agree on between which only the shape of the trees may differ. -/
structure SameTimelines (manager manager' : AVLTreeLockManager) : Prop where
  timeline : ∀ key, manager'.timeline key = manager.timeline key
  eventsAt : ∀ key tsEnd, manager'.eventsAt key tsEnd = manager.eventsAt key tsEnd
  record : ∀ tid key, manager'.record tid key = manager.record tid key

theorem Backward.sameTimelines
    {manager₁₂ manager₂₁ : AVLTreeLockManager}
    (wellFormed : manager.WellFormed) (different : tid₁ ≠ tid₂)
    (first : Backward manager key tid₁ end₁ true event₁ stop₁ lock₁ manager₁)
    (second : Backward manager₁ key tid₂ end₂ true event₂ stop₂ lock₂ manager₁₂)
    (first' : Backward manager key tid₂ end₂ true event₂ stop₂ lock₂ manager₂)
    (second' : Backward manager₂ key tid₁ end₁ true event₁ stop₁ lock₁ manager₂₁) :
    SameTimelines manager₁₂ manager₂₁ where
  timeline := by
    intro other
    rw [second'.timeline, second.timeline, first.timeline, first'.timeline,
      first.timeline, first'.timeline]
    split
    · simp only [if_true]
      rw [List.flatMap_assoc, List.flatMap_assoc]
      refine List.flatMap_congr fun lock member => (backwardPieces_comm
        ((wellFormed.isTimeline key).ordered member).1 first.le first'.le
        fun lockable => ⟨fun covers => ?_, fun covers => ?_⟩).symm
      · have same := (wellFormed.isTimeline key).cover_unique member first.member covers
          first.covers
        exact LockStatus.not_lockable_of_not_passes first.stops (same ▸ lockable)
      · have same := (wellFormed.isTimeline key).cover_unique member first'.member covers
          first'.covers
        exact LockStatus.not_lockable_of_not_passes first'.stops (same ▸ lockable)
    · rfl
  eventsAt := by
    intro other ts
    rw [second'.eventsAt, second.eventsAt, first.eventsAt, first'.eventsAt]
    split <;> split <;> simp [Finset.insert_comm]
  record := by
    intro other otherKey
    rw [second'.record, second.record, first.record, first'.record, first.record,
      first'.record]
    by_cases isFirst : other = tid₁
    · subst isFirst
      simp [different]
    · simp [isFirst, different.symm]

/--
Read locks commute: in every state that calls lead to, two backward read locks
of different transactions on a key give the same results in either order, and
leave the same intervals, events and records behind.
-/
theorem tryBackwardLock_comm (calls : List ManagerCall)
    (coordinated : ∀ call ∈ calls, call.Coordinated)
    (key : Nat) {tid₁ tid₂ ts₁ ts₂ : Nat} (different : tid₁ ≠ tid₂)
    (bound₁ : ts₁ < uintMax) (bound₂ : ts₂ < uintMax)
    (event₁ event₂ tsStart₁ tsStart₂ : Nat) :
    ∃ manager, run ManagerCall.apply empty calls = .ok manager ∧
      ∃ manager₁ manager₁₂ manager₂ manager₂₁ res₁ res₂ low₁ low₂,
        manager.tryBackwardLock key tid₁ ts₁ true event₁ tsStart₁ =
            .ok (manager₁, res₁, low₁) ∧
          manager₁.tryBackwardLock key tid₂ ts₂ true event₂ tsStart₂ =
            .ok (manager₁₂, res₂, low₂) ∧
          manager.tryBackwardLock key tid₂ ts₂ true event₂ tsStart₂ =
            .ok (manager₂, res₂, low₂) ∧
          manager₂.tryBackwardLock key tid₁ ts₁ true event₁ tsStart₁ =
            .ok (manager₂₁, res₁, low₁) ∧
          SameTimelines manager₁₂ manager₂₁ := by
  obtain ⟨manager, ran, wellFormed⟩ := run_wellFormed wellFormed_empty coordinated
  obtain ⟨manager₁, stop₁, lock₁, returned₁, first⟩ :=
    tryBackwardLock_eq wellFormed bound₁ key tid₁ true event₁ tsStart₁
  obtain ⟨manager₁₂, stop₂', lock₂', returned₁₂, second⟩ :=
    tryBackwardLock_eq first.wellFormed bound₂ key tid₂ true event₂ tsStart₂
  obtain ⟨manager₂, stop₂, lock₂, returned₂, first'⟩ :=
    tryBackwardLock_eq wellFormed bound₂ key tid₂ true event₂ tsStart₂
  obtain ⟨manager₂₁, stop₁', lock₁', returned₂₁, second'⟩ :=
    tryBackwardLock_eq first'.wellFormed bound₁ key tid₁ true event₁ tsStart₁
  obtain ⟨rfl, rfl⟩ := first.stop_after first' second
  obtain ⟨rfl, rfl⟩ := first'.stop_after first second'
  exact ⟨manager, ran, manager₁, manager₁₂, manager₂, manager₂₁, _, _, _, _, returned₁,
    returned₁₂, returned₂, returned₂₁,
    Backward.sameTimelines wellFormed different first second first' second'⟩

/-- Two reads whose ranges overlap above a write lock. -/
theorem tryBackwardLock_comm_of_overlap :
    ∃ manager, run ManagerCall.apply empty [.tryLock 7 9 3 3 false] = .ok manager ∧
      ∃ manager₁ manager₁₂ manager₂ manager₂₁ res₁ res₂ low₁ low₂,
        manager.tryBackwardLock 7 1 9 true 0 0 = .ok (manager₁, res₁, low₁) ∧
          manager₁.tryBackwardLock 7 2 5 true 1 0 = .ok (manager₁₂, res₂, low₂) ∧
          manager.tryBackwardLock 7 2 5 true 1 0 = .ok (manager₂, res₂, low₂) ∧
          manager₂.tryBackwardLock 7 1 9 true 0 0 = .ok (manager₂₁, res₁, low₁) ∧
          SameTimelines manager₁₂ manager₂₁ :=
  tryBackwardLock_comm _ (by decide) 7 (by decide) (by decide) (by decide) 0 1 0 0

end Mvtx.Lock
