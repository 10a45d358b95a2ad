import Mvtx.Lib.Multiversion
import Mvtx.Lock.Alone

/-!
# Claims

Seen from the transactions the lock manager is a table of claims: for every key
and every timestamp it says who has locked it, or that it is frozen.  The calls
change the table point by point, whatever the intervals of the trees are, as
long as no transaction unlocks a read lock that it shares.
-/

namespace Mvtx.Lock

open Lib Lib.Multiversion AVLTreeLockManager

/-- The status and the holders that make a claim. -/
def claimView : Claim Nat → LockStatus × Finset Nat
  | .free => (.free, ∅)
  | .reading holders => (.readLock, holders)
  | .writing holder => (.writeLock, {holder})
  | .read => (.freezeReadLock, ∅)
  | .written => (.freezeWriteLock, ∅)

/-- What a lock operation makes of a claim. -/
def takes (tid : Nat) (isRead : Bool) : Claim Nat → Claim Nat :=
  if isRead then .share tid else .reserve tid

/-- A table of claims, and a lock manager all of whose locks are in the records of their holders. -/
structure Realizes (manager : AVLTreeLockManager) (claims : Nat → Nat → Claim Nat) : Prop where
  covered : Covered (fun _ => False) manager
  viewAt : ∀ key ts, ts ≤ uintMax → manager.viewAt key ts = some (claimView (claims key ts))

/-- A transaction shares no interval with others. -/
def AVLTreeLockManager.SoleHolder (manager : AVLTreeLockManager) (tid : Nat) : Prop :=
  ∀ info ∈ manager.transactionMap tid, ∀ key ∈ info.intervals.keys,
    ∀ lock ∈ manager.timeline key, tid ∈ lock.tids → lock.tids = {tid}

instance (manager : AVLTreeLockManager) (tid : Nat) : Decidable (manager.SoleHolder tid) :=
  inferInstanceAs (Decidable (∀ info ∈ manager.transactionMap tid, _))

variable {manager manager' : AVLTreeLockManager} {claims : Nat → Nat → Claim Nat}
  {key tid ts : Nat} {isRead : Bool} {claim : Claim Nat} {lock : Interval}

/-! ## One point -/

theorem claimView_takes (tid : Nat) (isRead : Bool) (claim : Claim Nat) :
    claimView (takes tid isRead claim) = take tid isRead (claimView claim) := by
  cases claim <;> cases isRead <;> rfl

theorem claimView_freeze (shows : (lock.status, lock.tids) = claimView claim) (tid : Nat) :
    ((freezeVisit tid lock).1.status, (freezeVisit tid lock).1.tids) =
      claimView (claim.freeze tid) := by
  obtain ⟨status, tids⟩ := Prod.mk.inj shows
  cases claim with
  | reading holders =>
      by_cases holds : tid ∈ holders <;>
        simp [freezeVisit, Claim.freeze, claimView, status, tids, holds]
  | writing holder =>
      by_cases same : tid = holder
      · simp [freezeVisit, Claim.freeze, claimView, status, tids, same]
      · simp [freezeVisit, Claim.freeze, claimView, status, tids, same, Ne.symm same]
  | free | read | written => simp [freezeVisit, Claim.freeze, claimView, status, tids]

/-- A holder that is alone leaves nobody behind. -/
theorem claimView_unlock (shows : (lock.status, lock.tids) = claimView claim)
    (alone : tid ∈ lock.tids → lock.tids = {tid}) :
    ((unlockVisit tid lock).1.status, (unlockVisit tid lock).1.tids) =
      claimView (claim.release tid) := by
  obtain ⟨status, tids⟩ := Prod.mk.inj shows
  cases claim with
  | reading holders =>
      have tids : lock.tids = holders := tids
      by_cases holds : tid ∈ holders
      · obtain rfl : holders = {tid} := tids ▸ alone (tids ▸ holds)
        simp [unlockVisit, Claim.release, claimView, status, tids]
      · simp [unlockVisit, Claim.release, claimView, status, tids, holds]
  | writing holder =>
      by_cases same : tid = holder
      · simp [unlockVisit, Claim.release, claimView, status, tids, same]
      · simp [unlockVisit, Claim.release, claimView, status, tids, same, Ne.symm same]
  | free | read | written => simp [unlockVisit, Claim.release, claimView, status, tids]

theorem not_mem_claimView_freeze (tid : Nat) (claim : Claim Nat) :
    tid ∉ (claimView (claim.freeze tid)).2 := by
  cases claim with
  | reading holders =>
      by_cases holds : tid ∈ holders <;> simp [Claim.freeze, claimView, holds]
  | writing holder =>
      by_cases same : holder = tid
      · simp [Claim.freeze, claimView, same]
      · simp [Claim.freeze, claimView, same, Ne.symm same]
  | free | read | written => simp [Claim.freeze, claimView]

theorem not_mem_claimView_release (tid : Nat) (claim : Claim Nat) :
    tid ∉ (claimView (claim.release tid)).2 := by
  cases claim with
  | reading holders =>
      by_cases holds : tid ∈ holders
      · by_cases last : holders.erase tid = ∅ <;> simp [Claim.release, claimView, holds, last]
      · simp [Claim.release, claimView, holds]
  | writing holder =>
      by_cases same : holder = tid
      · simp [Claim.release, claimView, same]
      · simp [Claim.release, claimView, same, Ne.symm same]
  | free | read | written => simp [Claim.release, claimView]

/-! ## The calls -/

/-- A transaction whose locks are all gone may go on. -/
theorem Covered.forget (covered : Covered (fun other => False ∨ other = tid) manager)
    (gone : ∀ key, ∀ lock ∈ manager.timeline key, tid ∉ lock.tids) :
    Covered (fun _ => False) manager where
  wellFormed := covered.wellFormed
  gone := fun _ never => never.elim
  inside := by
    intro holder key _ lock member holds
    refine covered.inside holder key ?_ lock member holds
    rintro (never | rfl)
    · exact never
    · exact gone key lock member holds
  cleared := covered.cleared

namespace Realizes

theorem wellFormed (realizes : Realizes manager claims) : manager.WellFormed :=
  realizes.covered.wellFormed

theorem empty {Value : Type*} (contents : Nat → Value) :
    Realizes AVLTreeLockManager.empty
      (State.initial contents : State Nat Nat Nat Value).claims where
  covered := .empty
  viewAt := by
    intro key ts bound
    obtain ⟨lock, known⟩ := exists_covering wellFormed_empty.trees key bound
    obtain ⟨member, starts, ends⟩ := (covering_eq_some wellFormed_empty.trees).1 known
    rw [AVLTreeLockManager.viewAt, known, Option.map_some]
    have member' : lock ∈ initialTimeline := member
    simp only [initialTimeline, List.mem_cons, List.not_mem_nil, or_false] at member'
    rcases member' with rfl | rfl
    · obtain rfl : ts = 0 := Nat.le_zero.1 ends
      rfl
    · have positive : ts ≠ 0 := by
        rintro rfl
        exact absurd starts (by decide)
      simp [State.initial, positive, claimView, futureInterval, AVLTreeLockNode.initial]

/-- The claim that the interval of a timestamp shows. -/
theorem shows (realizes : Realizes manager claims)
    (covering : manager.covering key ts = some lock) :
    (lock.status, lock.tids) = claimView (claims key ts) := by
  have bound : ts ≤ uintMax := by
    by_contra beyond
    rw [covering_eq_none realizes.wellFormed.trees (Nat.not_le.1 beyond)] at covering
    exact absurd covering (by simp)
  have view := realizes.viewAt key ts bound
  rw [AVLTreeLockManager.viewAt, covering] at view
  exact Option.some.inj view

/-- What a scan for reading goes past. -/
theorem passes (realizes : Realizes manager claims)
    (covering : manager.covering key ts = some lock) (goesOn : ¬ lock.status.Stops true) :
    (claims key ts).Passes := by
  have status := congrArg Prod.fst (realizes.shows covering)
  cases claim : claims key ts <;>
    simp_all [claimView, Claim.Passes, LockStatus.Stops]

/-- Where a scan for reading is answered. -/
theorem eq_written (realizes : Realizes manager claims)
    (covering : manager.covering key ts = some lock) (stops : lock.status.Stops true)
    (frozen : lock.status.frozen = true) : claims key ts = .written := by
  have status := congrArg Prod.fst (realizes.shows covering)
  cases claim : claims key ts <;>
    simp_all [claimView, LockStatus.Stops, LockStatus.frozen]

/-- What a writer can lock. -/
theorem eq_free (realizes : Realizes manager claims)
    (covering : manager.covering key ts = some lock)
    (passes : lock.status.passes false = true) : claims key ts = .free := by
  have status := congrArg Prod.fst (realizes.shows covering)
  cases claim : claims key ts <;>
    simp_all [claimView, LockStatus.passes]

theorem sameView (realizes : Realizes manager claims) (wellFormed : manager'.WellFormed)
    (same : SameView manager manager') : Realizes manager' claims where
  covered := realizes.covered.sameView wellFormed same
  viewAt := by
    intro key ts bound
    rw [viewAt_of_timeline (same.timeline key)]
    exact realizes.viewAt key ts bound

/-- A lock operation on a range. -/
theorem acquired (realizes : Realizes manager claims) {low high : Nat}
    (acquired : Acquired manager key tid isRead low high manager')
    (others : ∀ other, other ≠ tid →
      manager'.transactionMap other = manager.transactionMap other)
    (range : Set Nat) [DecidablePred (· ∈ range)]
    (views : ∀ other ts, manager'.viewAt other ts =
      if other = key ∧ ts ∈ range then (manager.viewAt other ts).map (take tid isRead)
      else manager.viewAt other ts) :
    Realizes manager' (changeAt claims key range (takes tid isRead)) where
  covered := realizes.covered.acquired (fun never => never) acquired others
  viewAt := by
    intro other ts bound
    rw [views, realizes.viewAt other ts bound]
    unfold changeAt
    split
    · rw [claimView_takes, Option.map_some]
    · rfl

/-- The scan of `tryBackwardLock`. -/
theorem backward (realizes : Realizes manager claims) {tsEnd event tsStart : Nat}
    (bound : tsEnd < uintMax) {res : Bool} {low : Nat}
    (returned : manager.tryBackwardLock key tid tsEnd isRead event tsStart =
      .ok (manager', res, low)) :
    ∃ point stop, low = point + 1 ∧ point ≤ tsEnd ∧
      manager.covering key point = some stop ∧ stop.status.Stops isRead ∧
      (res = true ↔ stop.status.frozen = true) ∧
      (∀ ts, point < ts → ts ≤ tsEnd →
        ∃ lock, manager.covering key ts = some lock ∧ ¬ lock.status.Stops isRead) ∧
      Realizes manager' (changeAt claims key (Set.Ioc point tsEnd) (takes tid isRead)) := by
  obtain ⟨manager₁, point, stop, returned₁, effect⟩ :=
    tryBackwardLock_eq realizes.wellFormed bound key tid isRead event tsStart
  rw [returned] at returned₁
  obtain ⟨rfl, rfl, rfl⟩ : manager' = manager₁ ∧ res = _ ∧ low = point + 1 := by
    simpa using returned₁
  have locks := effect.locksBackward realizes.wellFormed bound.le
  refine ⟨point, stop, rfl, locks.le, locks.covering, locks.stops, locks.result, locks.greatest,
    realizes.acquired effect.acquired
      (fun other differs => transactionMap_tryBackwardLock returned differs) _ fun other ts => ?_⟩
  rw [locks.viewAt]
  by_cases same : other = key
  · subst same
    simp [Set.mem_Ioc]
  · simp [same]

/-- `tryLock` of a single timestamp. -/
theorem point (realizes : Realizes manager claims) (bound : ts < uintMax) {res : Bool}
    (returned : manager.tryLock key tid ts ts isRead = .ok (manager', res)) :
    ∃ lock, manager.covering key ts = some lock ∧ res = lock.status.passes isRead ∧
      Realizes manager' (if res then changeAt claims key {ts} (takes tid isRead) else claims) := by
  obtain ⟨manager₁, lock, member, covers, ⟨refuses, returned₁, wellFormed, same⟩ |
    ⟨pends, visit, returned₁, locked⟩⟩ := tryLock_point realizes.wellFormed key bound tid isRead
  all_goals
    rw [returned] at returned₁
    obtain ⟨rfl, rfl⟩ := Prod.mk.inj (Except.ok.inj returned₁)
    have known := (covering_eq_some realizes.wellFormed.trees).2 ⟨member, covers⟩
  · refine ⟨lock, known, ?_, realizes.sameView wellFormed same⟩
    cases status : lock.status <;> cases isRead <;>
      simp_all [searchVisit, LockStatus.passes]
  · have passes : lock.status.passes isRead = true := by
      cases status : lock.status <;> cases isRead <;>
        simp_all [searchVisit, LockStatus.passes]
    refine ⟨lock, known, passes.symm, realizes.acquired locked.acquired
      (fun other differs => transactionMap_tryLock returned differs) _ fun other ts' => ?_⟩
    by_cases differs : other ≠ key
    · rw [if_neg fun all => differs all.1]
      exact viewAt_of_timeline (by rw [locked.timeline, if_neg differs])
    obtain rfl : other = key := not_not.1 differs
    have taken : TakesLocks manager other tid ts ts isRead (if pends then [lock] else [])
        manager' :=
      { trees := locked.wellFormed.trees
        collected := locked.collected
        timeline := locked.timeline
        eventsAt := locked.eventsAt
        record := locked.record
        keyMap := locked.keyMap }
    have unique : ∀ lock', manager.InRange other ts ts lock' → lock' = lock := by
      intro lock' inRange
      exact (realizes.wellFormed.isTimeline other).cover_unique inRange.1 member
        ⟨inRange.2.1, inRange.2.2⟩ covers
    rw [((taken.viewAt_iff realizes.wellFormed.trees le_rfl fun lock' inRange =>
      unique lock' inRange ▸ passes).2 fun lock' inRange lockable => ?_)]
    · simp [le_antisymm_iff, and_comm]
    · obtain rfl := unique lock' inRange
      have pends' : pends = true := by
        have := searchVisit_eq_some_true.2 lockable
        simpa [visit] using this
      simp [pends']

/-- `freeze` and `unlock`, where the claim of a point changes with its interval. -/
theorem released (realizes : Realizes manager claims) {visit : Interval → Interval × Bool}
    {events : Finset Nat} (release : Released visit manager tid manager' events)
    (lets : LetsGo visit tid) (loosens : Loosens visit)
    (gone : manager'.transactionMap tid = none)
    (others : ∀ other, other ≠ tid →
      manager'.transactionMap other = manager.transactionMap other)
    {change : Claim Nat → Claim Nat} (leaves : ∀ claim, tid ∉ (claimView (change claim)).2)
    (changes : ∀ key ts, ∀ lock ∈ manager.timeline key,
      (lock.status, lock.tids) = claimView (claims key ts) →
      ((visit lock).1.status, (visit lock).1.tids) = claimView (change (claims key ts))) :
    Realizes manager' fun key ts => change (claims key ts) := by
  have timeline := realizes.wellFormed.isTimeline
  -- What the transaction holds is visited, and what it does not hold stays as it is.
  have visited : ∀ key, ∀ lock ∈ manager.timeline key,
      Lock.released visit (manager.record tid key) lock = (visit lock).1 := fun key lock member =>
    released_eq_visit ((timeline key).ordered member).1
      (realizes.covered.inside tid key (fun never => never) lock member)
      fun absent => congrArg Prod.fst (lets.others lock absent)
  refine ⟨(realizes.covered.released lets.lawful loosens release gone others).forget ?_, ?_⟩
  · intro key part member
    rw [release.timeline] at member
    obtain ⟨lock, old, rfl⟩ := List.mem_map.1 member
    have covering := (covering_eq_some realizes.wellFormed.trees).2
      ⟨old, le_rfl, ((timeline key).ordered old).1⟩
    have view := changes key lock.startTs lock old (realizes.shows covering)
    rw [visited key lock old]
    intro holds
    exact leaves (claims key lock.startTs) (congrArg Prod.snd view ▸ holds)
  · intro key ts bound
    obtain ⟨lock, covering⟩ := exists_covering realizes.wellFormed.trees key bound
    have member := ((covering_eq_some realizes.wellFormed.trees).1 covering).1
    have covering' := release.covering lets.lawful realizes.wellFormed covering
    rw [visited key lock member] at covering'
    rw [AVLTreeLockManager.viewAt, covering', Option.map_some]
    exact congrArg some (changes key ts lock member (realizes.shows covering))

theorem freeze (realizes : Realizes manager claims) {events : Finset Nat}
    (returned : manager.freeze tid = .ok (manager', events)) :
    Realizes manager' fun key ts => (claims key ts).freeze tid := by
  obtain ⟨manager₁, events₁, returned₁, release⟩ := freeze_eq realizes.wellFormed tid
  obtain ⟨rfl, rfl⟩ := Prod.mk.inj (Except.ok.inj (returned.symm.trans returned₁))
  obtain ⟨-, gone, others⟩ := release_frame returned
  exact realizes.released release (letsGo_freezeVisit tid) (loosens_freezeVisit tid) gone others
    (not_mem_claimView_freeze tid) fun key ts lock _ shows => claimView_freeze shows tid

/-- The holders of a record that is not shared. -/
theorem alone (realizes : Realizes manager claims) (sole : manager.SoleHolder tid)
    (member : lock ∈ manager.timeline key) (holds : tid ∈ lock.tids) :
    lock.tids = {tid} := by
  obtain ⟨low, high, recorded, -⟩ :=
    realizes.covered.inside tid key (fun never => never) lock member holds
  obtain ⟨info, present, found⟩ := Option.bind_eq_some_iff.1 recorded
  refine sole info present key ?_ lock member holds
  exact Finmap.mem_keys.2 (Finmap.mem_of_lookup_eq_some found)

theorem unlock (realizes : Realizes manager claims) {events : Finset Nat}
    (sole : manager.SoleHolder tid) (returned : manager.unlock tid = .ok (manager', events)) :
    Realizes manager' fun key ts => (claims key ts).release tid := by
  obtain ⟨manager₁, events₁, returned₁, release⟩ := unlock_eq realizes.wellFormed tid
  obtain ⟨rfl, rfl⟩ := Prod.mk.inj (Except.ok.inj (returned.symm.trans returned₁))
  obtain ⟨-, gone, others⟩ := release_frame returned
  exact realizes.released release (letsGo_unlockVisit tid) (loosens_unlockVisit tid) gone others
    (not_mem_claimView_release tid)
    fun key ts lock member shows => claimView_unlock shows (realizes.alone sole member)

end Realizes

end Mvtx.Lock
