import Mvtx.Lock.Calls

/-!
# Lock exclusion and retention

A transaction holds a timestamp of a key from the call that locks it until it
freezes or unlocks.  `Ledger` keeps the account beside the lock manager.  The
account is right as long as two things do not happen: an `unlock` by one of
several readers of an interval, which frees the interval for all of them, and
a `tryLock` that overreaches its range.  A run with the first is worked out.
-/

namespace Mvtx.Lock

open Lib AVLTreeLockManager

/-- The lock manager and who holds what: transaction, key, timestamp, for read or not. -/
structure Ledger where
  manager : AVLTreeLockManager
  held : Nat → Nat → Nat → Bool → Bool

namespace Ledger

/-- No key is known and nothing is held. -/
def first : Ledger where
  manager := empty
  held := fun _ _ _ _ => false

/-- Whether the interval of a timestamp is locked in a mode by a transaction. -/
def carries (manager : AVLTreeLockManager) (tid key ts : Nat) (isRead : Bool) : Bool :=
  match manager.covering key ts with
  | some lock => lock.status = lockMode isRead && tid ∈ lock.tids
  | none => false

/-- What is held after a call that has locked within the range `[low, high]`. -/
def gain (ledger : Ledger) (manager : AVLTreeLockManager)
    (tid key low high : Nat) (isRead : Bool) : Ledger where
  manager := manager
  held := fun other otherKey ts mode =>
    ledger.held other otherKey ts mode ||
      (other = tid && otherKey = key && mode = isRead && low ≤ ts && ts ≤ high &&
        carries manager tid key ts isRead)

/-- What is held after a transaction has given up its locks. -/
def drop (ledger : Ledger) (manager : AVLTreeLockManager) (tid : Nat) : Ledger where
  manager := manager
  held := fun other key ts mode => other ≠ tid && ledger.held other key ts mode

/-- A call, with what its transaction gains or gives up. -/
def step (ledger : Ledger) : ManagerCall → Exec Ledger
  | .tryBackwardLock key tid tsEnd isRead event tsStart => do
      let (manager, _, low) ←
        ledger.manager.tryBackwardLock key tid tsEnd isRead event tsStart
      return ledger.gain manager tid key low tsEnd isRead
  | .tryLock key tid tsStart tsEnd isRead => do
      let (manager, res) ← ledger.manager.tryLock key tid tsStart tsEnd isRead
      if res then
        return ledger.gain manager tid key tsStart tsEnd isRead
      else
        return { ledger with manager := manager }
  | .freeze tid => do
      let (manager, _) ← ledger.manager.freeze tid
      return ledger.drop manager tid
  | .unlock tid => do
      let (manager, _) ← ledger.manager.unlock tid
      return ledger.drop manager tid

/-- What is held is locked accordingly, so that no two transactions are in conflict. -/
structure Exclusive (ledger : Ledger) : Prop where
  read : ∀ tid key ts, ledger.held tid key ts true = true →
    ∃ lock, ledger.manager.covering key ts = some lock ∧
      (lock.status = .readLock ∧ tid ∈ lock.tids ∨ lock.status = .freezeReadLock)
  write : ∀ tid key ts, ledger.held tid key ts false = true →
    ∃ lock, ledger.manager.covering key ts = some lock ∧
      lock.status = .writeLock ∧ lock.tids = {tid}
  conflict : ∀ tid other key ts isRead, ledger.held tid key ts false = true →
    ledger.held other key ts isRead = true → other = tid

end Ledger

/-- Timestamps between `1` and `2^64 - 2`, and ranges that are not empty. -/
def ManagerCall.Timely : ManagerCall → Prop
  | .tryBackwardLock _ _ tsEnd _ _ _ => 1 ≤ tsEnd ∧ tsEnd < uintMax
  | .tryLock _ _ tsStart tsEnd _ => 1 ≤ tsStart ∧ tsStart ≤ tsEnd ∧ tsEnd < uintMax
  | .freeze _ | .unlock _ => True

instance : (call : ManagerCall) → Decidable call.Timely
  | .tryBackwardLock _ _ tsEnd _ _ _ => inferInstanceAs (Decidable (1 ≤ tsEnd ∧ tsEnd < uintMax))
  | .tryLock _ _ tsStart tsEnd _ =>
      inferInstanceAs (Decidable (1 ≤ tsStart ∧ tsStart ≤ tsEnd ∧ tsEnd < uintMax))
  | .freeze _ | .unlock _ => inferInstanceAs (Decidable True)

/--
The call neither unlocks a transaction that shares an interval with another
reader nor overreaches.
-/
def ManagerCall.Spares (manager : AVLTreeLockManager) : ManagerCall → Prop
  | .tryLock key _ tsStart tsEnd isRead =>
      ¬ manager.overreaches key tsStart tsEnd isRead
  | .unlock tid => ∀ key, ∀ lock ∈ manager.timeline key,
      lock.status = .readLock → tid ∈ lock.tids → lock.tids = {tid}
  | .tryBackwardLock .. | .freeze _ => True

/-! ## What one call preserves -/

/-- Free intervals have no holders left, and write locks have one. -/
def Tidy (lock : Interval) : Prop :=
  (lock.status = .free → lock.tids = ∅) ∧
    (lock.status = .writeLock → ∃ tid, lock.tids = {tid})

theorem tidy_initialTimeline : ∀ lock ∈ initialTimeline, Tidy lock := by
  intro lock member
  simp only [initialTimeline, List.mem_cons, List.not_mem_nil, or_false] at member
  rcases member with rfl | rfl <;> simp [Tidy, originInterval, futureInterval,
    AVLTreeLockNode.initial]

theorem Tidy.piece {tid low high : Nat} {isRead : Bool} {lock part : Interval}
    (tidy : Tidy lock) (piece : Piece tid isRead low high lock part) : Tidy part := by
  cases piece with
  | same => exact tidy
  | rest _ status tids => rwa [Tidy, status, tids]
  | locked lockable status tids =>
      refine ⟨fun free => ?_, fun write => ?_⟩
      · rw [status] at free
        cases isRead <;> simp [lockMode] at free
      · rw [status] at write
        obtain rfl : isRead = false := by
          cases isRead with
          | false => rfl
          | true => simp [lockMode] at write
        rcases lockable with free | ⟨-, impossible⟩
        · exact ⟨tid, by rw [tids, tidy.1 free]; rfl⟩
        · exact absurd impossible (by decide)

/-- Every timestamp keeps an interval, and `Acquired` says which. -/
theorem Acquired.covering_piece
    {manager manager' : AVLTreeLockManager} {key tid low high other ts : Nat}
    {isRead : Bool} {lock : Interval}
    (acquired : Acquired manager key tid isRead low high manager')
    (wellFormed : manager.WellFormed)
    (covering : manager.covering other ts = some lock) :
    ∃ part, manager'.covering other ts = some part ∧
      ((other = key ∧ Piece tid isRead low high lock part) ∨
        (other ≠ key ∧ part = lock)) := by
  obtain ⟨member, covers⟩ := (covering_eq_some wellFormed.trees).1 covering
  have timeline := wellFormed.isTimeline other
  have bound := (timeline.ordered member).2
  obtain ⟨part, isPart, partCovers⟩ :=
    (acquired.wellFormed.isTimeline other).exists_cover (Nat.le_trans covers.2 bound)
  obtain ⟨whole, isWhole, change⟩ := acquired.pieces other part isPart
  have wholeCovers : whole.Covers ts := by
    rcases change with ⟨-, piece⟩ | ⟨-, rfl⟩
    · obtain ⟨starts, ends⟩ := piece.within
      exact ⟨Nat.le_trans starts partCovers.1, Nat.le_trans partCovers.2 ends⟩
    · exact partCovers
  obtain rfl := timeline.cover_unique isWhole member wholeCovers covers
  exact ⟨part, (covering_eq_some acquired.wellFormed.trees).2 ⟨isPart, partCovers⟩, change⟩

/-- The invariant behind `Exclusive`. -/
structure Guarded (ledger : Ledger) : Prop where
  wellFormed : ledger.manager.WellFormed
  tidy : ∀ key, ∀ lock ∈ ledger.manager.timeline key, Tidy lock
  read : ∀ tid key ts, ledger.held tid key ts true = true →
    ∃ lock, ledger.manager.covering key ts = some lock ∧
      (lock.status = .readLock ∧ tid ∈ lock.tids ∨ lock.status = .freezeReadLock)
  write : ∀ tid key ts, ledger.held tid key ts false = true →
    ∃ lock, ledger.manager.covering key ts = some lock ∧
      lock.status = .writeLock ∧ lock.tids = {tid}

namespace Guarded

variable {ledger : Ledger}

theorem exclusive (guarded : Guarded ledger) : ledger.Exclusive where
  read := guarded.read
  write := guarded.write
  conflict := by
    intro tid other key ts isRead holds holds'
    obtain ⟨lock, covering, status, tids⟩ := guarded.write tid key ts holds
    cases isRead with
    | false =>
        obtain ⟨lock', covering', -, tids'⟩ := guarded.write other key ts holds'
        obtain rfl : lock = lock' := by simpa [covering] using covering'
        simpa [tids] using tids'.symm
    | true =>
        obtain ⟨lock', covering', locked⟩ := guarded.read other key ts holds'
        obtain rfl : lock = lock' := by simpa [covering] using covering'
        simp [status] at locked

theorem first : Guarded Ledger.first where
  wellFormed := wellFormed_empty
  tidy := fun _ => tidy_initialTimeline
  read := by simp [Ledger.first]
  write := by simp [Ledger.first]

theorem sameView {manager : AVLTreeLockManager}
    (guarded : Guarded ledger) (wellFormed : manager.WellFormed)
    (same : SameView ledger.manager manager) :
    Guarded { ledger with manager := manager } where
  wellFormed := wellFormed
  tidy := fun key => by
    rw [same.timeline]
    exact guarded.tidy key
  read := fun tid key ts holds => by
    simp only [covering, same.timeline]
    exact guarded.read tid key ts holds
  write := fun tid key ts holds => by
    simp only [covering, same.timeline]
    exact guarded.write tid key ts holds

/-- Taking locks takes nothing away from those who hold some already. -/
theorem gain {manager : AVLTreeLockManager} {tid key low high : Nat} {isRead : Bool}
    (guarded : Guarded ledger)
    (acquired : Acquired ledger.manager key tid isRead low high manager) :
    Guarded (ledger.gain manager tid key low high isRead) := by
  have tidy : ∀ key, ∀ lock ∈ manager.timeline key, Tidy lock := by
    intro other part member
    obtain ⟨lock, old, ⟨-, piece⟩ | ⟨-, rfl⟩⟩ := acquired.pieces other part member
    · exact (guarded.tidy other lock old).piece piece
    · exact guarded.tidy other part old
  refine ⟨acquired.wellFormed, tidy, fun other otherKey ts holds => ?_,
    fun other otherKey ts holds => ?_⟩
  all_goals
    simp only [Ledger.gain, Bool.or_eq_true, Bool.and_eq_true, decide_eq_true_eq] at holds ⊢
  · rcases holds with old | ⟨⟨⟨⟨⟨rfl, rfl⟩, rfl⟩, -⟩, -⟩, carried⟩
    · obtain ⟨lock, covering, locked⟩ := guarded.read other otherKey ts old
      obtain ⟨part, covering', change⟩ :=
        acquired.covering_piece guarded.wellFormed covering
      refine ⟨part, covering', ?_⟩
      rcases change with ⟨-, piece⟩ | ⟨-, rfl⟩
      · cases piece with
        | same => exact locked
        | rest _ status tids => rwa [status, tids]
        | locked lockable status tids =>
            rcases lockable with free | ⟨read, rfl⟩
            · simp [free] at locked
            · rw [read] at locked
              have holder : other ∈ lock.tids := by simpa using locked
              exact .inl ⟨status, by simp [tids, holder]⟩
      · exact locked
    · unfold Ledger.carries at carried
      split at carried
      · next lock covering =>
          simp only [Bool.and_eq_true, decide_eq_true_eq] at carried
          exact ⟨lock, covering, .inl carried⟩
      · exact absurd carried (by decide)
  · rcases holds with old | ⟨⟨⟨⟨⟨rfl, rfl⟩, rfl⟩, -⟩, -⟩, carried⟩
    · obtain ⟨lock, covering, status, tids⟩ := guarded.write other otherKey ts old
      have fixed : ¬ lock.status.Lockable isRead := by
        simp [status, LockStatus.Lockable]
      exact ⟨lock, acquired.covering guarded.wellFormed covering fixed, status, tids⟩
    · unfold Ledger.carries at carried
      split at carried
      · next lock covering =>
          simp only [Bool.and_eq_true, decide_eq_true_eq] at carried
          obtain ⟨status, holder⟩ := carried
          have member := ((covering_eq_some acquired.wellFormed.trees).1 covering).1
          obtain ⟨only, tids⟩ := (tidy otherKey lock member).2 status
          rw [tids, Finset.mem_singleton] at holder
          exact ⟨lock, covering, status, holder ▸ tids⟩
      · exact absurd carried (by decide)

/-- Giving locks up leaves those of the others alone, if the visits do. -/
theorem drop {visit : Interval → Interval × Bool} {manager : AVLTreeLockManager}
    {tid : Nat} {events : Finset Nat}
    (guarded : Guarded ledger) (lawful : LawfulVisit visit)
    (release : Released visit ledger.manager tid manager events)
    (visitTidy : ∀ key, ∀ lock ∈ ledger.manager.timeline key, Tidy lock →
      Tidy (visit lock).1)
    (visitRead : ∀ key, ∀ lock ∈ ledger.manager.timeline key, ∀ other, other ≠ tid →
      lock.status = .readLock → other ∈ lock.tids →
      (visit lock).1.status = .readLock ∧ other ∈ (visit lock).1.tids ∨
        (visit lock).1.status = .freezeReadLock)
    (visitWrite : ∀ lock : Interval, lock.status = .writeLock → tid ∉ lock.tids →
      (visit lock).1 = lock) :
    Guarded (ledger.drop manager tid) := by
  refine ⟨release.wellFormed, fun key part member => ?_, fun other key ts holds => ?_,
    fun other key ts holds => ?_⟩
  · have member' : part ∈ manager.timeline key := member
    rw [release.timeline] at member'
    obtain ⟨lock, old, rfl⟩ := List.mem_map.1 member'
    unfold released
    split
    · exact visitTidy key lock old (guarded.tidy key lock old)
    · exact guarded.tidy key lock old
  all_goals
    simp only [Ledger.drop, Bool.and_eq_true, decide_eq_true_eq] at holds ⊢
    obtain ⟨different, holds⟩ := holds
  · obtain ⟨lock, covering, locked⟩ := guarded.read other key ts holds
    refine ⟨_, release.covering lawful guarded.wellFormed covering, ?_⟩
    rcases locked with ⟨status, holder⟩ | frozen
    · unfold released
      split
      · exact visitRead key lock ((covering_eq_some guarded.wellFormed.trees).1 covering).1 other
          different status holder
      · exact .inl ⟨status, holder⟩
    · rw [released_of_frozen lawful (by rw [frozen]; rfl)]
      exact .inr frozen
  · obtain ⟨lock, covering, status, tids⟩ := guarded.write other key ts holds
    refine ⟨lock, ?_, status, tids⟩
    rw [release.covering lawful guarded.wellFormed covering, released, visitWrite lock status,
      ite_self]
    rw [tids, Finset.mem_singleton]
    exact fun same => different same.symm

theorem freeze {manager : AVLTreeLockManager} {tid : Nat} {events : Finset Nat}
    (guarded : Guarded ledger)
    (release : Released (freezeVisit tid) ledger.manager tid manager events) :
    Guarded (ledger.drop manager tid) := by
  refine guarded.drop (lawfulVisit_freezeVisit tid) release (fun _ lock _ tidy => ?_)
    (fun _ lock _ other _ status holder => ?_) (fun lock status notHolder => ?_)
  · unfold freezeVisit
    cases status : lock.status <;> simp only [] <;> (try split) <;>
      simp_all [Tidy]
  · simp only [freezeVisit, status]
    split
    · exact .inr rfl
    · exact .inl ⟨status, holder⟩
  · simp only [freezeVisit, status, notHolder, if_false]

theorem unlock {manager : AVLTreeLockManager} {tid : Nat} {events : Finset Nat}
    (guarded : Guarded ledger)
    (alone : ∀ key, ∀ lock ∈ ledger.manager.timeline key,
      lock.status = .readLock → tid ∈ lock.tids → lock.tids = {tid})
    (release : Released (unlockVisit tid) ledger.manager tid manager events) :
    Guarded (ledger.drop manager tid) := by
  refine guarded.drop (lawfulVisit_unlockVisit tid) release
    (fun key lock member tidy => ?_)
    (fun key lock member other different status holder => ?_)
    (fun lock status notHolder => ?_)
  · unfold unlockVisit
    cases status : lock.status with
    | free | freezeReadLock | freezeWriteLock => exact tidy
    | readLock =>
        simp only
        split
        · next holder => simp [Tidy, alone key lock member status holder]
        · exact tidy
    | writeLock =>
        simp only
        split
        · next holder =>
            obtain ⟨only, tids⟩ := tidy.2 status
            rw [tids, Finset.mem_singleton] at holder
            simp [Tidy, tids, holder]
        · exact tidy
  · simp only [unlockVisit, status]
    split
    · next holder' =>
        rw [alone key lock member status holder', Finset.mem_singleton] at holder
        exact absurd holder different
    · exact .inl ⟨status, holder⟩
  · simp only [unlockVisit, status, notHolder, if_false]

theorem step {ledger' : Ledger} {call : ManagerCall}
    (guarded : Guarded ledger) (timely : call.Timely)
    (spares : call.Spares ledger.manager)
    (stepped : ledger.step call = .ok ledger') : Guarded ledger' := by
  cases call with
  | tryBackwardLock key tid tsEnd isRead event tsStart =>
      obtain ⟨manager, stopTs, stop, returned, effect⟩ :=
        tryBackwardLock_eq guarded.wellFormed timely.2 key tid isRead event tsStart
      simp only [Ledger.step, returned, bind, Except.bind] at stepped
      cases stepped
      exact guarded.gain effect.acquired
  | tryLock key tid tsStart tsEnd isRead =>
      obtain ⟨positive, ordered, bound⟩ := timely
      obtain ⟨manager, res, returned, ⟨rfl, wellFormed, same⟩ | ⟨rfl, chosen, effect⟩⟩ :=
        tryLock_eq guarded.wellFormed positive ordered bound spares tid
      · simp only [Ledger.step, returned, bind, Except.bind] at stepped
        cases stepped
        exact guarded.sameView wellFormed same
      · simp only [Ledger.step, returned, bind, Except.bind] at stepped
        cases stepped
        exact guarded.gain effect.acquired
  | freeze tid =>
      obtain ⟨manager, events, returned, effect⟩ := freeze_eq guarded.wellFormed tid
      simp only [Ledger.step, returned, bind, Except.bind] at stepped
      cases stepped
      exact guarded.freeze effect
  | unlock tid =>
      obtain ⟨manager, events, returned, effect⟩ := unlock_eq guarded.wellFormed tid
      simp only [Ledger.step, returned, bind, Except.bind] at stepped
      cases stepped
      exact guarded.unlock spares effect

end Guarded

/-! ## What runs preserve -/

/-- Exclusion and retention, in every run of calls that spare the locks of others. -/
theorem exclusive_of_reach {ledger : Ledger}
    (reached : Reach Ledger.step
      (fun ledger call => call.Timely ∧ call.Spares ledger.manager) Ledger.first ledger) :
    ledger.Exclusive :=
  Guarded.exclusive (reached.invariant Guarded.first
    fun _ _ _ guarded permitted stepped => guarded.step permitted.1 permitted.2 stepped)

/-- Two readers share `[1, 9]` and the first one freezes; the second still holds it. -/
theorem exclusive_of_shared_freeze :
    ∃ ledger : Ledger, ledger.held 2 7 5 true = true ∧ ledger.Exclusive := by
  obtain ⟨ledger, reached, holds⟩ := exists_reach_of_ends
    (fun (ledger : Ledger) call => call.Timely ∧ call.Spares ledger.manager)
    [.tryBackwardLock 7 1 9 true 0 0, .tryBackwardLock 7 2 19 true 1 0, .freeze 1]
    (fun ledger => ledger.held 2 7 5 true)
    (fun _ call member => by
      simp only [List.mem_cons, List.not_mem_nil, or_false] at member
      rcases member with rfl | rfl | rfl <;> exact ⟨by decide, trivial⟩)
    (show ends Ledger.step _ Ledger.first _ = true by decide)
  exact ⟨ledger, holds, exclusive_of_reach reached⟩

/--
Two readers share `[1, 9]`, the first one unlocks, and a third transaction
write-locks `5` while the second one still holds it.
-/
theorem not_exclusive_of_shared_unlock :
    ∃ ledger, Reach Ledger.step (fun _ call => call.Timely) Ledger.first ledger ∧
      ¬ ledger.Exclusive := by
  obtain ⟨ledger, reached, holds⟩ := exists_reach_of_ends (fun (_ : Ledger) call => call.Timely)
    [.tryBackwardLock 7 1 9 true 0 0, .tryBackwardLock 7 2 19 true 1 0, .unlock 1,
      .tryLock 7 3 5 5 false]
    (fun ledger => ledger.held 2 7 5 true && ledger.held 3 7 5 false)
    (fun _ call member => by
      simp only [List.mem_cons, List.not_mem_nil, or_false] at member
      rcases member with rfl | rfl | rfl | rfl <;> decide)
    (show ends Ledger.step _ Ledger.first _ = true by decide)
  refine ⟨ledger, reached, fun exclusive => ?_⟩
  simp only [Bool.and_eq_true] at holds
  exact absurd (exclusive.conflict 3 2 7 5 true holds.2 holds.1) (by decide)

end Mvtx.Lock
