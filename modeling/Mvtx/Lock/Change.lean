import Mvtx.Lock.Acquire
import Mvtx.Lock.Backward
import Mvtx.Lock.Release

/-!
# How the intervals of a key change

Seen from a timestamp, the four operations do one of two things: a lock
operation takes the lock on some intervals, possibly after cutting them, and
`freeze` and `unlock` give locks up.  `Acquired` and `Released` say so for all
keys at once; whatever the program relies on is derived from these two.
-/

namespace Mvtx.Lock

open Lib AVLTreeLockManager

/-! ## The interval of a timestamp -/

namespace IsTimeline

variable {intervals : List Interval} {lock other : Interval} {ts : Nat}

theorem ordered (timeline : IsTimeline intervals) (member : lock ∈ intervals) :
    lock.startTs ≤ lock.endTs ∧ lock.endTs ≤ uintMax := by
  have := timeline.tiles.bounds member
  omega

theorem exists_cover (timeline : IsTimeline intervals) (bound : ts ≤ uintMax) :
    ∃ lock ∈ intervals, lock.Covers ts := by
  obtain ⟨earlier, lock, later, rfl, covers⟩ :=
    timeline.tiles.exists_cover ts (Nat.zero_le _) (by omega)
  exact ⟨lock, by simp, covers⟩

theorem cover_unique (timeline : IsTimeline intervals)
    (member : lock ∈ intervals) (member' : other ∈ intervals)
    (covers : lock.Covers ts) (covers' : other.Covers ts) : lock = other :=
  timeline.tiles.cover_unique ts member member' covers covers'

end IsTimeline

namespace AVLTreeLockManager

/-- The interval of a key that contains a timestamp. -/
def covering (manager : AVLTreeLockManager) (key ts : Nat) : Option Interval :=
  (manager.timeline key).find? fun lock => decide (lock.Covers ts)

/-- The status of a timestamp. -/
def statusAt (manager : AVLTreeLockManager) (key ts : Nat) : Option LockStatus :=
  (manager.covering key ts).map (·.status)

variable {manager : AVLTreeLockManager} {key ts : Nat} {lock : Interval}

theorem covering_eq_some (trees : manager.Trees) :
    manager.covering key ts = some lock ↔
      lock ∈ manager.timeline key ∧ lock.Covers ts := by
  unfold covering
  constructor
  · intro found
    exact ⟨List.mem_of_find?_eq_some found, by simpa using List.find?_some found⟩
  · rintro ⟨member, covers⟩
    cases found : (manager.timeline key).find? fun lock => decide (lock.Covers ts) with
    | none =>
        have := List.find?_eq_none.1 found lock member
        exact absurd covers (by simpa using this)
    | some other =>
        have covers' : other.Covers ts := by simpa using List.find?_some found
        rw [(trees.isTimeline key).cover_unique member
          (List.mem_of_find?_eq_some found) covers covers']

theorem statusAt_eq_some (trees : manager.Trees) {status : LockStatus} :
    manager.statusAt key ts = some status ↔
      ∃ lock ∈ manager.timeline key, lock.Covers ts ∧ lock.status = status := by
  simp only [statusAt, Option.map_eq_some_iff, covering_eq_some trees, and_assoc]

end AVLTreeLockManager

/-! ## Taking locks -/

/-- What one interval has become after a lock operation on the range `[low, high]`. -/
inductive Piece (tid : Nat) (isRead : Bool) (low high : Nat) (lock : Interval) :
    Interval → Prop where
  /-- It has been left alone. -/
  | same : Piece tid isRead low high lock lock
  /-- A part outside the range, cut off. -/
  | rest
      {part : Interval}
      (lockable : lock.status.Lockable isRead)
      (status : part.status = lock.status)
      (tids : part.tids = lock.tids)
      (starts : lock.startTs ≤ part.startTs)
      (ends : part.endTs ≤ lock.endTs) :
      Piece tid isRead low high lock part
  /-- The part inside the range, locked. -/
  | locked
      {part : Interval}
      (lockable : lock.status.Lockable isRead)
      (status : part.status = lockMode isRead)
      (tids : part.tids = insert tid lock.tids)
      (starts : max lock.startTs low ≤ part.startTs)
      (ends : part.endTs ≤ min lock.endTs high) :
      Piece tid isRead low high lock part

theorem Piece.within {tid low high : Nat} {isRead : Bool} {lock part : Interval}
    (piece : Piece tid isRead low high lock part) :
    lock.startTs ≤ part.startTs ∧ part.endTs ≤ lock.endTs := by
  cases piece with
  | same => exact ⟨Nat.le_refl _, Nat.le_refl _⟩
  | rest _ _ _ starts ends => exact ⟨starts, ends⟩
  | locked _ _ _ starts ends => omega

/-- The effect of a lock operation on the range `[low, high]` of a key. -/
structure Acquired (manager : AVLTreeLockManager) (key tid : Nat) (isRead : Bool)
    (low high : Nat) (manager' : AVLTreeLockManager) : Prop where
  wellFormed : manager'.WellFormed
  pieces : ∀ other, ∀ part ∈ manager'.timeline other,
    ∃ lock ∈ manager.timeline other,
      (other = key ∧ Piece tid isRead low high lock part) ∨ (other ≠ key ∧ part = lock)
  kept : ∀ other, ∀ lock ∈ manager.timeline other,
    ¬ lock.status.Lockable isRead → lock ∈ manager'.timeline other
  record : ∀ other otherKey, manager'.record other otherKey =
    if other = tid ∧ otherKey = key then
      some (widen (manager.record tid key) low high)
    else manager.record other otherKey

theorem claim_of_lockable {tid : Nat} {isRead : Bool} {lock : Interval}
    (lockable : lock.status.Lockable isRead) :
    claim tid isRead lock =
      { lock with status := lockMode isRead, tids := insert tid lock.tids } := by
  unfold claim lockMode
  rcases lockable with free | ⟨read, rfl⟩
  · simp only [free]
  · simp only [read, if_true]

theorem claim_of_not_lockable {tid : Nat} {isRead : Bool} {lock : Interval}
    (fixed : ¬ lock.status.Lockable isRead) : claim tid isRead lock = lock := by
  unfold claim
  cases status : lock.status <;> cases isRead <;>
    simp_all [LockStatus.Lockable]

theorem lockable_of_splitsAt {isRead : Bool} {lock : Interval} {ts : Nat}
    (splits : splitsAt isRead lock ts = true) : lock.status.Lockable isRead := by
  obtain ⟨passes, notFrozen, -⟩ := splitsAt_eq.1 splits
  cases status : lock.status <;> cases isRead <;>
    simp_all [LockStatus.passes, LockStatus.frozen, LockStatus.Lockable]

theorem searchVisit_eq_some_true {isRead : Bool} {lock : Interval} :
    searchVisit isRead lock = some true ↔ lock.status.Lockable isRead := by
  unfold searchVisit
  cases lock.status <;> cases isRead <;> simp [LockStatus.Lockable]

theorem piece_claim {tid low high : Nat} {isRead : Bool} {lock : Interval}
    (starts : low ≤ lock.startTs) (ends : lock.endTs ≤ high) :
    Piece tid isRead low high lock (claim tid isRead lock) := by
  by_cases lockable : lock.status.Lockable isRead
  · rw [claim_of_lockable lockable]
    exact .locked lockable rfl rfl (by simp only; omega) (by simp only; omega)
  · rw [claim_of_not_lockable lockable]
    exact .same

theorem piece_of_mem_backwardPieces {tid stopTs tsEnd : Nat} {isRead : Bool}
    {lock part : Interval}
    (member : part ∈ backwardPieces tid isRead stopTs tsEnd lock) :
    Piece tid isRead (stopTs + 1) tsEnd lock part := by
  simp only [backwardPieces, entryPieces, List.mem_map] at member
  obtain ⟨cut, inPieces, rfl⟩ := member
  split at inPieces
  · next splits =>
      have lockable := lockable_of_splitsAt splits.2
      have longer := (splitsAt_eq.1 splits.2).2.2
      simp only [List.mem_cons, List.not_mem_nil, or_false] at inPieces
      rcases inPieces with rfl | rfl
      · split
        · next inRange =>
            have lockable' : LockStatus.Lockable isRead
                ({ lock with endTs := tsEnd } : Interval).status := lockable
            rw [claim_of_lockable lockable']
            simp only at inRange
            exact .locked lockable rfl rfl (by simp only; omega) (by simp only; omega)
        · exact .rest lockable rfl rfl (Nat.le_refl _) (Nat.le_of_lt longer)
      · rw [if_neg]
        · exact .rest lockable rfl rfl (by simp only; omega) (Nat.le_refl _)
        · simp only
          omega
  · obtain rfl : cut = lock := by simpa using inPieces
    split
    · next inRange => exact piece_claim inRange.1 inRange.2
    · exact .same

theorem backwardPieces_of_not_lockable {tid stopTs tsEnd : Nat} {isRead : Bool}
    {lock : Interval} (fixed : ¬ lock.status.Lockable isRead) :
    backwardPieces tid isRead stopTs tsEnd lock = [lock] := by
  have whole : ¬ (lock.startTs ≤ tsEnd ∧ splitsAt isRead lock tsEnd = true) :=
    fun splits => fixed (lockable_of_splitsAt splits.2)
  rw [backwardPieces, entryPieces, if_neg whole, List.map_singleton,
    claim_of_not_lockable fixed, ite_self]

section Walks

variable {manager manager' : AVLTreeLockManager} {key tid tsEnd event stopTs : Nat} {isRead : Bool}
  {stop lock : Interval}

/-- A scan leaves alone what it cannot lock. -/
theorem WalksBack.kept
    (walks : WalksBack manager key tid tsEnd isRead event stopTs stop manager') {other : Nat}
    (member : lock ∈ manager.timeline other) (fixed : ¬ lock.status.Lockable isRead) :
    lock ∈ manager'.timeline other := by
  rw [walks.timeline]
  split
  · next same =>
      subst same
      refine List.mem_flatMap.2 ⟨lock, member, ?_⟩
      simp [backwardPieces_of_not_lockable fixed]
  · exact member

/-- A scan that begins where it must stop goes nowhere. -/
theorem WalksBack.stays
    (walks : WalksBack manager key tid tsEnd isRead event stopTs stop manager')
    (trees : manager.Trees) (member : lock ∈ manager.timeline key) (covers : lock.Covers tsEnd)
    (stops : lock.status.passes isRead = false) : stopTs = tsEnd ∧ stop = lock := by
  have same : stopTs = tsEnd := by
    by_contra differs
    have passes := walks.passed tsEnd (lt_of_le_of_ne walks.le differs) le_rfl lock member covers
    rw [stops] at passes
    exact absurd passes (by decide)
  subst same
  exact ⟨rfl, (trees.isTimeline key).cover_unique walks.member member walks.covers covers⟩

end Walks

theorem Backward.acquired
    {manager manager' : AVLTreeLockManager} {key tid tsEnd event stopTs : Nat}
    {isRead : Bool} {stop : Interval}
    (backward : Backward manager key tid tsEnd isRead event stopTs stop manager') :
    Acquired manager key tid isRead (stopTs + 1) tsEnd manager' where
  wellFormed := backward.wellFormed
  pieces := by
    intro other part member
    rw [backward.timeline] at member
    split at member
    · next same =>
        obtain ⟨lock, old, inPieces⟩ := List.mem_flatMap.1 member
        exact ⟨lock, same ▸ old, .inl ⟨same, piece_of_mem_backwardPieces inPieces⟩⟩
    · next different => exact ⟨part, member, .inr ⟨different, rfl⟩⟩
  kept := by
    intro other lock member fixed
    rw [backward.timeline]
    split
    · next same =>
        refine List.mem_flatMap.2 ⟨lock, same ▸ member, ?_⟩
        simp [backwardPieces_of_not_lockable fixed]
    · exact member
  record := backward.record

theorem piece_of_mem_lockPieces {tid tsStart tsEnd : Nat} {isRead : Bool}
    {lock part : Interval}
    (lockable : lock.status.Lockable isRead)
    (starts : lock.startTs ≤ tsEnd) (ends : tsStart ≤ lock.endTs)
    (member : part ∈ lockPieces tid tsStart tsEnd isRead lock) :
    Piece tid isRead tsStart tsEnd lock part := by
  simp only [lockPieces, lowPiece, highPiece, List.mem_append, List.mem_cons] at member
  rcases member with isLow | rfl | isHigh
  · split at isLow
    · next before =>
        obtain rfl := List.mem_singleton.1 isLow
        exact .rest lockable rfl rfl (Nat.le_refl _) (by simp only; omega)
    · simp at isLow
  · exact .locked lockable rfl rfl (Nat.le_refl _) (Nat.le_refl _)
  · split at isHigh
    · next after =>
        obtain rfl := List.mem_singleton.1 isHigh
        exact .rest lockable rfl rfl (by simp only; omega) (Nat.le_refl _)
    · simp at isHigh

theorem Locked.acquired
    {manager manager' : AVLTreeLockManager} {key tid tsStart tsEnd : Nat}
    {isRead : Bool} {chosen : List Interval}
    (locked : Locked manager key tid tsStart tsEnd isRead chosen manager') :
    Acquired manager key tid isRead tsStart tsEnd manager' where
  wellFormed := locked.wellFormed
  pieces := by
    intro other part member
    rw [locked.timeline] at member
    split at member
    · next same =>
        obtain ⟨lock, old, inPieces⟩ := List.mem_flatMap.1 member
        refine ⟨lock, same ▸ old, .inl ⟨same, ?_⟩⟩
        split at inPieces
        · next isChosen =>
            obtain ⟨-, visit, starts, ends⟩ := locked.collected lock isChosen
            exact piece_of_mem_lockPieces (searchVisit_eq_some_true.1 visit) starts ends
              inPieces
        · obtain rfl := List.mem_singleton.1 inPieces
          exact .same
    · next different => exact ⟨part, member, .inr ⟨different, rfl⟩⟩
  kept := by
    intro other lock member fixed
    rw [locked.timeline]
    split
    · next same =>
        refine List.mem_flatMap.2 ⟨lock, same ▸ member, ?_⟩
        have notChosen : lock ∉ chosen := fun isChosen =>
          fixed (searchVisit_eq_some_true.1 (locked.collected lock isChosen).2.1)
        simp [notChosen]
    · exact member
  record := locked.record

/-! ## Frozen intervals -/

/-- A lock operation leaves what it cannot take over in place. -/
theorem Acquired.covering
    {manager manager' : AVLTreeLockManager} {key tid low high other ts : Nat}
    {isRead : Bool} {lock : Interval}
    (acquired : Acquired manager key tid isRead low high manager')
    (wellFormed : manager.WellFormed)
    (covering : manager.covering other ts = some lock)
    (fixed : ¬ lock.status.Lockable isRead) :
    manager'.covering other ts = some lock := by
  obtain ⟨member, covers⟩ := (covering_eq_some wellFormed.trees).1 covering
  exact (covering_eq_some acquired.wellFormed.trees).2
    ⟨acquired.kept other lock member fixed, covers⟩

theorem Scans.covering
    {visit : Interval → Interval × Bool}
    {manager manager' : AVLTreeLockManager} {tid key ts : Nat} {events : Finset Nat}
    {lock : Interval}
    (scans : Scans visit manager tid manager' events)
    (lawful : LawfulVisit visit) (trees : manager.Trees)
    (covering : manager.covering key ts = some lock) :
    manager'.covering key ts = some (released visit (manager.record tid key) lock) := by
  obtain ⟨member, covers⟩ := (covering_eq_some trees).1 covering
  refine (covering_eq_some scans.trees).2 ⟨?_, ?_⟩
  · rw [scans.timeline]
    exact List.mem_map_of_mem member
  · exact ⟨(lawful.released_startTs _ lock).symm ▸ covers.1,
      (lawful.released_endTs _ lock).symm ▸ covers.2⟩

theorem Released.covering
    {visit : Interval → Interval × Bool}
    {manager manager' : AVLTreeLockManager} {tid key ts : Nat} {events : Finset Nat}
    {lock : Interval}
    (release : Released visit manager tid manager' events)
    (lawful : LawfulVisit visit) (wellFormed : manager.WellFormed)
    (covering : manager.covering key ts = some lock) :
    manager'.covering key ts = some (released visit (manager.record tid key) lock) :=
  release.scans.covering lawful wellFormed.trees covering

theorem LockStatus.not_lockable_of_frozen {status : LockStatus} {isRead : Bool}
    (frozen : status.frozen = true) : ¬ status.Lockable isRead := by
  cases status <;> simp_all [LockStatus.frozen, LockStatus.Lockable]

theorem released_of_frozen {visit : Interval → Interval × Bool} {lock : Interval}
    (lawful : LawfulVisit visit) (frozen : lock.status.frozen = true)
    (recorded : Option (Nat × Nat)) : released visit recorded lock = lock := by
  have idle := lawful.idle lock
    (fun status => by simp [status, LockStatus.frozen] at frozen)
    (fun status => by simp [status, LockStatus.frozen] at frozen)
  rw [released, idle, ite_self]

end Mvtx.Lock
