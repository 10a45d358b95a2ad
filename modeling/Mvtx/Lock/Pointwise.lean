import Mvtx.Lock.Calls

/-!
# Timelines as functions of the timestamp

Where the intervals are cut does not matter to a reader of the timeline: what
counts is the status and the holders of every timestamp.  The exact effect of
`tryBackwardLock` is stated in these terms, for every state that Coordinators'
calls lead to.
-/

namespace Mvtx.Lock

open Lib AVLTreeLockManager

/-- The status and the holders of a timestamp. -/
def AVLTreeLockManager.viewAt (manager : AVLTreeLockManager) (key ts : Nat) :
    Option (LockStatus × Finset Nat) :=
  (manager.covering key ts).map fun lock => (lock.status, lock.tids)

/-- What a scan makes of the timestamps that it passes. -/
def take (tid : Nat) (isRead : Bool) :
    LockStatus × Finset Nat → LockStatus × Finset Nat
  | (.free, tids) => (lockMode isRead, insert tid tids)
  | (.readLock, tids) => (.readLock, if isRead then insert tid tids else tids)
  | (status, tids) => (status, tids)

/-- The range recorded after another one has been locked. -/
def mergedRange (recorded : Option (Nat × Nat)) (tsStart tsEnd : Nat) : Nat × Nat :=
  match recorded with
  | none => (tsStart, tsEnd)
  | some (low, high) => (min low tsStart, max high tsEnd)

theorem widen_eq_mergedRange (recorded : Option (Nat × Nat)) (tsStart tsEnd : Nat) :
    widen recorded tsStart tsEnd = mergedRange recorded tsStart tsEnd := by
  rcases recorded with - | ⟨low, high⟩
  · rfl
  · simp only [widen, mergedRange, Prod.mk.injEq]
    constructor <;> split <;> omega

theorem take_eq_claim (tid : Nat) (isRead : Bool) (lock : Interval) :
    take tid isRead (lock.status, lock.tids) =
      ((claim tid isRead lock).status, (claim tid isRead lock).tids) := by
  unfold claim
  cases status : lock.status <;> cases isRead <;> simp [take, lockMode, status]

/-! ## The pieces of an interval -/

section Pieces

variable {tid stopTs tsEnd ts : Nat} {isRead : Bool} {lock : Interval}

theorem mem_backwardPieces_of_cut
    (starts : lock.startTs ≤ tsEnd) (splits : splitsAt isRead lock tsEnd = true)
    {cut : Interval}
    (isCut : cut = { lock with endTs := tsEnd } ∨
      cut = { lock with startTs := tsEnd + 1 }) :
    (if stopTs < cut.startTs ∧ cut.endTs ≤ tsEnd then claim tid isRead cut else cut) ∈
      backwardPieces tid isRead stopTs tsEnd lock := by
  refine List.mem_map.2 ⟨cut, ?_, rfl⟩
  rw [entryPieces, if_pos ⟨starts, splits⟩]
  simpa using isCut

theorem backwardPieces_of_whole
    (whole : ¬ (lock.startTs ≤ tsEnd ∧ splitsAt isRead lock tsEnd = true)) :
    backwardPieces tid isRead stopTs tsEnd lock =
      [if stopTs < lock.startTs ∧ lock.endTs ≤ tsEnd then claim tid isRead lock
        else lock] := by
  rw [backwardPieces, entryPieces, if_neg whole]
  rfl

/--
The piece that contains a timestamp has been taken if the timestamp lies in
the scanned range, and is as it was otherwise.
-/
theorem exists_piece_view (tid stopTs tsEnd : Nat) (isRead : Bool)
    (covers : lock.Covers ts)
    (within : stopTs < ts → ts ≤ tsEnd →
      stopTs < lock.startTs ∧ lock.status.passes isRead = true) :
    ∃ part ∈ backwardPieces tid isRead stopTs tsEnd lock, part.Covers ts ∧
      (part.status, part.tids) =
        if stopTs < ts ∧ ts ≤ tsEnd then take tid isRead (lock.status, lock.tids)
        else (lock.status, lock.tids) := by
  obtain ⟨starts, ends⟩ := covers
  by_cases cut : lock.startTs ≤ tsEnd ∧ splitsAt isRead lock tsEnd = true
  · obtain ⟨before, splits⟩ := cut
    by_cases low : ts ≤ tsEnd
    · refine ⟨_, mem_backwardPieces_of_cut before splits (.inl rfl), ?_, ?_⟩
      · split
        · exact ⟨by simpa using starts, by simpa using low⟩
        · exact ⟨starts, low⟩
      · by_cases inRange : stopTs < ts
        · rw [if_pos ⟨(within inRange low).1, Nat.le_refl _⟩, if_pos ⟨inRange, low⟩]
          exact (take_eq_claim tid isRead { lock with endTs := tsEnd }).symm
        · rw [if_neg fun claimed => inRange (Nat.lt_of_lt_of_le claimed.1 starts),
            if_neg fun scanned => inRange scanned.1]
    · have after : ¬ (stopTs < tsEnd + 1 ∧ lock.endTs ≤ tsEnd) := by omega
      refine ⟨_, mem_backwardPieces_of_cut before splits (.inr rfl), ?_, ?_⟩
      · rw [if_neg after]
        exact ⟨by simp only; omega, ends⟩
      · rw [if_neg after, if_neg fun scanned => low scanned.2]
  · rw [backwardPieces_of_whole cut]
    refine ⟨_, List.mem_singleton.2 rfl, ?_, ?_⟩
    · split
      · exact ⟨by simpa using starts, by simpa using ends⟩
      · exact ⟨starts, ends⟩
    · by_cases scanned : stopTs < ts ∧ ts ≤ tsEnd
      · obtain ⟨inRange, passes⟩ := within scanned.1 scanned.2
        rw [if_pos scanned, take_eq_claim]
        by_cases ended : lock.endTs ≤ tsEnd
        · rw [if_pos ⟨inRange, ended⟩]
        · -- It is not cut although it goes on after the range: it is frozen.
          have frozen : lock.status.frozen = true := by
            by_contra unfrozen
            refine cut ⟨Nat.le_trans starts scanned.2, splitsAt_eq.2 ⟨passes, ?_, ?_⟩⟩
            · simpa using unfrozen
            · exact Nat.not_le.1 ended
          rw [if_neg fun claimed => ended claimed.2, claim_eq_self frozen]
      · rw [if_neg scanned, if_neg]
        rintro ⟨inRange, ended⟩
        exact scanned ⟨Nat.lt_of_lt_of_le inRange starts, Nat.le_trans ends ended⟩

end Pieces

/-! ## The exact effect of tryBackwardLock -/

/--
The effect of a scan of `key` from `tsEnd` backwards that stops at the
timestamp `point`, in the interval `stop`, with the result `res`.
-/
structure LocksBackward (manager : AVLTreeLockManager) (key tid tsEnd : Nat)
    (isRead : Bool) (event point : Nat) (stop : Interval) (res : Bool)
    (manager' : AVLTreeLockManager) : Prop where
  le : point ≤ tsEnd
  covering : manager.covering key point = some stop
  stops : stop.status.Stops isRead
  greatest : ∀ ts, point < ts → ts ≤ tsEnd →
    ∃ lock, manager.covering key ts = some lock ∧ ¬ lock.status.Stops isRead
  result : res = true ↔ stop.status.frozen = true
  viewAt : ∀ other ts, manager'.viewAt other ts =
    if other = key ∧ point < ts ∧ ts ≤ tsEnd then
      (manager.viewAt key ts).map (take tid isRead)
    else manager.viewAt other ts
  eventsAt : ∀ other ts, manager'.eventsAt other ts =
    if res = false ∧ other = key ∧ ts = stop.endTs then
      insert event (manager.eventsAt other ts)
    else manager.eventsAt other ts
  record : ∀ other otherKey, manager'.record other otherKey =
    if other = tid ∧ otherKey = key then
      some (mergedRange (manager.record tid key) (point + 1) tsEnd)
    else manager.record other otherKey

namespace AVLTreeLockManager

variable {manager manager' : AVLTreeLockManager} {key other ts : Nat} {lock : Interval}

theorem exists_covering (trees : manager.Trees) (key : Nat)
    (bound : ts ≤ uintMax) : ∃ lock, manager.covering key ts = some lock := by
  obtain ⟨lock, member, covers⟩ := (trees.isTimeline key).exists_cover bound
  exact ⟨lock, (covering_eq_some trees).2 ⟨member, covers⟩⟩

theorem covering_eq_none (trees : manager.Trees) (beyond : uintMax < ts) :
    manager.covering key ts = none := by
  cases found : manager.covering key ts with
  | none => rfl
  | some lock =>
      obtain ⟨member, covers⟩ := (covering_eq_some trees).1 found
      have := ((trees.isTimeline key).ordered member).2
      exact absurd covers.2 (by omega)

theorem viewAt_of_timeline (same : manager'.timeline other = manager.timeline other) :
    manager'.viewAt other ts = manager.viewAt other ts := by
  rw [viewAt, viewAt, covering, covering, same]

end AVLTreeLockManager

theorem WalksBack.viewAt
    {manager manager' : AVLTreeLockManager} {key tid tsEnd event stopTs : Nat}
    {isRead : Bool} {stop : Interval}
    (trees : manager.Trees)
    (backward : WalksBack manager key tid tsEnd isRead event stopTs stop manager')
    (other ts : Nat) :
    manager'.viewAt other ts =
      if other = key ∧ stopTs < ts ∧ ts ≤ tsEnd then
        (manager.viewAt key ts).map (take tid isRead)
      else manager.viewAt other ts := by
  by_cases different : other ≠ key
  · rw [if_neg fun inside => different inside.1]
    exact viewAt_of_timeline (by rw [backward.timeline, if_neg different])
  obtain rfl : other = key := not_not.1 different
  by_cases beyond : uintMax < ts
  · simp only [AVLTreeLockManager.viewAt, covering_eq_none trees beyond,
      covering_eq_none backward.trees beyond, Option.map_none, ite_self]
  obtain ⟨lock, known⟩ := exists_covering trees other (Nat.not_lt.1 beyond)
  obtain ⟨member, covers⟩ := (covering_eq_some trees).1 known
  obtain ⟨part, isPiece, partCovers, view⟩ :=
    exists_piece_view tid stopTs tsEnd isRead covers fun after upTo => by
        have passes := backward.passed ts after upTo lock member covers
        refine ⟨?_, passes⟩
        -- An interval that reaches down to the stop would have stopped the scan.
        by_contra reaches
        have same := (trees.isTimeline other).cover_unique member backward.member
          (show lock.Covers stopTs from
            ⟨Nat.not_lt.1 reaches, Nat.le_trans (Nat.le_of_lt after) covers.2⟩)
          backward.covers
        rw [same, backward.stops] at passes
        exact absurd passes (by decide)
  have known' : manager'.covering other ts = some part := by
    refine (covering_eq_some backward.trees).2 ⟨?_, partCovers⟩
    rw [backward.timeline, if_pos rfl]
    exact List.mem_flatMap.2 ⟨lock, member, isPiece⟩
  simp only [AVLTreeLockManager.viewAt, known, known', Option.map_some, true_and]
  rw [view]
  split <;> rfl

/-- Whatever `Backward` says can be said of timestamps. -/
theorem Backward.locksBackward
    {manager manager' : AVLTreeLockManager} {key tid tsEnd event stopTs : Nat}
    {isRead : Bool} {stop : Interval}
    (wellFormed : manager.WellFormed) (bound : tsEnd ≤ uintMax)
    (backward : Backward manager key tid tsEnd isRead event stopTs stop manager') :
    LocksBackward manager key tid tsEnd isRead event stopTs stop
      (!stop.status.waits isRead) manager' where
  le := backward.le
  covering := (covering_eq_some wellFormed.trees).2 ⟨backward.member, backward.covers⟩
  stops := LockStatus.stops_iff.2 backward.stops
  greatest := by
    intro ts after upTo
    obtain ⟨lock, known⟩ := exists_covering wellFormed.trees key (Nat.le_trans upTo bound)
    obtain ⟨member, covers⟩ := (covering_eq_some wellFormed.trees).1 known
    refine ⟨lock, known, ?_⟩
    rw [LockStatus.stops_iff, backward.passed ts after upTo lock member covers]
    decide
  result := by
    rw [LockStatus.waits_eq_not_frozen backward.stops, Bool.not_not]
  viewAt := backward.walks.viewAt wellFormed.trees
  eventsAt := by
    intro other ts
    rw [backward.eventsAt]
    refine if_congr ?_ rfl rfl
    cases stop.status.waits isRead <;> simp
  record := by
    intro other otherKey
    rw [backward.record, widen_eq_mergedRange]

/--
The exact effect of `tryBackwardLock`, in every state that calls lead to: it
returns, the lowest timestamp it reports is one past the greatest one at which
the scan must stop, and nothing but the range in between, the event and the
record of the caller changes.
-/
theorem tryBackwardLock_exact (calls : List ManagerCall)
    (coordinated : ∀ call ∈ calls, call.Coordinated)
    (key tid tsEnd : Nat) (bound : tsEnd < uintMax)
    (isRead : Bool) (event tsStart : Nat) :
    ∃ manager, run ManagerCall.apply empty calls = .ok manager ∧
      ∃ manager' res point stop,
        manager.tryBackwardLock key tid tsEnd isRead event tsStart =
            .ok (manager', res, point + 1) ∧
          LocksBackward manager key tid tsEnd isRead event point stop res manager' := by
  obtain ⟨manager, ran, wellFormed⟩ := run_wellFormed wellFormed_empty coordinated
  obtain ⟨manager', point, stop, returned, effect⟩ :=
    tryBackwardLock_eq wellFormed bound key tid isRead event tsStart
  exact ⟨manager, ran, manager', _, point, stop, returned,
    effect.locksBackward wellFormed (Nat.le_of_lt bound)⟩

/-- A reader comes across a write lock and waits for it. -/
theorem tryBackwardLock_exact_of_blocked :
    ∃ manager, run ManagerCall.apply empty
        [.tryBackwardLock 7 1 9 true 0 0, .tryLock 7 2 12 12 false] = .ok manager ∧
      ∃ manager' res point stop,
        manager.tryBackwardLock 7 3 20 true 1 0 = .ok (manager', res, point + 1) ∧
          LocksBackward manager 7 3 20 true 1 point stop res manager' :=
  tryBackwardLock_exact _ (by decide) 7 3 20 (by decide) true 1 0

end Mvtx.Lock
