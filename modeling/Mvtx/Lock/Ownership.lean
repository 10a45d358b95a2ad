import Mvtx.Lock.Claims
import Mvtx.Lock.Wire

/-!
# Whose locks they are

A lock operation adds holders and takes what is free; what others have locked
stays locked.  `freeze` and `unlock` change only what their transaction holds, so
another transaction notices them only where both hold a read lock.
-/

namespace Mvtx.Lock

open Lib AVLTreeLockManager

/-- A transaction is a holder of a lock on a timestamp. -/
def AVLTreeLockManager.Holds (manager : AVLTreeLockManager) (tid key ts : Nat)
    (status : LockStatus) : Prop :=
  status.held = true ∧ ∃ tids, manager.viewAt key ts = some (status, tids) ∧ tid ∈ tids

/-- What is free has no holders, and a write lock has one. -/
def AVLTreeLockManager.Tidy (manager : AVLTreeLockManager) : Prop :=
  ∀ key ts status tids, manager.viewAt key ts = some (status, tids) →
    (status = .free → tids = ∅) ∧ (status = .writeLock → ∃ tid, tids = {tid})

variable {manager manager' manager'' : AVLTreeLockManager} {key tid other ts : Nat}
  {isRead : Bool} {status : LockStatus} {events : Finset Nat}

theorem tidy_empty : AVLTreeLockManager.empty.Tidy := by
  intro key ts status tids view
  obtain ⟨lock, covering, same⟩ := Option.map_eq_some_iff.1 view
  obtain ⟨rfl, rfl⟩ := Prod.mk.inj same
  exact tidy_initialTimeline lock ((covering_eq_some wellFormed_empty.trees).1 covering).1

/-! ## Locking -/

/-- Nobody loses a lock, and what is frozen stays frozen. -/
structure Grows (manager manager' : AVLTreeLockManager) : Prop where
  tidy : manager.Tidy → manager'.Tidy
  holds : ∀ tid key ts status, manager.Holds tid key ts status → manager'.Holds tid key ts status
  frozen : ∀ key ts, manager.statusAt key ts = some .freezeReadLock →
    manager'.statusAt key ts = some .freezeReadLock

namespace Grows

theorem refl (manager : AVLTreeLockManager) : Grows manager manager :=
  ⟨fun tidy => tidy, fun _ _ _ _ holds => holds, fun _ _ frozen => frozen⟩

theorem trans (earlier : Grows manager manager') (later : Grows manager' manager'') :
    Grows manager manager'' where
  tidy := fun tidy => later.tidy (earlier.tidy tidy)
  holds := fun tid key ts status holds =>
    later.holds tid key ts status (earlier.holds tid key ts status holds)
  frozen := fun key ts frozen => later.frozen key ts (earlier.frozen key ts frozen)

/-- What is taken or left alone at every timestamp. -/
theorem of_take (tid : Nat) (isRead : Bool)
    (taken : ∀ key ts, manager'.viewAt key ts = manager.viewAt key ts ∨
      manager'.viewAt key ts = (manager.viewAt key ts).map (take tid isRead)) :
    Grows manager manager' where
  tidy := by
    intro tidy key ts status tids view
    rcases taken key ts with same | same
    · exact tidy key ts status tids (same ▸ view)
    · rw [same] at view
      obtain ⟨⟨status', tids'⟩, old, new⟩ := Option.map_eq_some_iff.1 view
      have before := tidy key ts status' tids' old
      cases status' <;> cases isRead <;> simp only [take, lockMode, Prod.mk.injEq] at new <;>
        obtain ⟨rfl, rfl⟩ := new <;> simp_all
  holds := by
    rintro other key ts status ⟨held, tids, view, member⟩
    rcases taken key ts with same | same
    · exact ⟨held, tids, same ▸ view, member⟩
    · refine ⟨held, (take tid isRead (status, tids)).2, ?_, ?_⟩
      · rw [same, view, Option.map_some, Option.some.injEq]
        cases status <;> first | rfl | exact absurd held (by decide)
      · cases status <;> cases isRead <;> simp_all [take, LockStatus.held]
  frozen := by
    intro key ts frozen
    rw [statusAt_eq_viewAt] at frozen ⊢
    obtain ⟨⟨status, tids⟩, view, rfl⟩ := Option.map_eq_some_iff.1 frozen
    rcases taken key ts with same | same
    · rw [same, view]
      rfl
    · rw [same, view]
      rfl

end Grows

/-- A scan takes what it passes. -/
theorem grows_of_walks {tsEnd event stopTs : Nat} {stop : Interval} (trees : manager.Trees)
    (walks : WalksBack manager key tid tsEnd isRead event stopTs stop manager') :
    Grows manager manager' := by
  refine .of_take tid isRead fun other ts => ?_
  rw [walks.viewAt trees]
  split
  · next inside => exact .inr (inside.1 ▸ rfl)
  · exact .inl rfl

/-- A write lock at a timestamp takes what is free. -/
theorem grows_of_tryLock {res : Bool} (sound : manager.Sound) (bound : ts ≤ uintMax)
    (returned : manager.tryLock key tid ts ts false = .ok (manager', res)) :
    Grows manager manager' := by
  obtain ⟨manager₁, lock, -, -, ⟨-, returned₁, -, same⟩ | ⟨pends, -, -, returned₁, takes⟩⟩ :=
    tryLock_point_trees sound.trees key bound tid false
  all_goals
    rw [returned] at returned₁
    obtain ⟨rfl, -⟩ := Prod.mk.inj (Except.ok.inj returned₁)
  · exact .of_take tid false fun other point => .inl (viewAt_of_timeline (same.timeline other))
  · refine .of_take tid false fun other point => ?_
    by_cases different : other ≠ key
    · exact .inl (viewAt_of_timeline (by rw [takes.timeline, if_neg different]))
    obtain rfl : other = key := not_not.1 different
    by_cases beyond : uintMax < point
    · left
      simp only [viewAt, covering_eq_none sound.trees beyond, covering_eq_none takes.trees beyond]
    obtain ⟨lock', known⟩ := exists_covering sound.trees other (Nat.not_lt.1 beyond)
    rw [takes.viewAt sound.trees known, viewAt, known]
    by_cases taken : lock' ∈ (if pends then [lock] else []) ∧ ts ≤ point ∧ point ≤ ts
    · exact .inr (if_pos taken)
    · exact .inl (if_neg taken)

/-! ## Letting go -/

/--
What `freeze` or `unlock` of a transaction makes of an interval, where an unlock
meets no shared lock.
-/
theorem visit_cases {vote : Bool} {lock : Interval} {visit : Interval → Interval × Bool}
    (visits : visit lock = if vote then freezeVisit tid lock else unlockVisit tid lock)
    (tidy : lock.status = .writeLock → ∃ holder, lock.tids = {holder})
    (sole : vote = false → tid ∈ lock.tids → lock.tids = {tid}) :
    (visit lock).1 = lock ∨ tid ∈ lock.tids ∧ (visit lock).1.tids = ∅ ∧
      (visit lock).1.status ≠ .writeLock ∧ (lock.tids = {tid} ∨
        vote = true ∧ lock.status = .readLock ∧ (visit lock).1.status = .freezeReadLock) := by
  rw [visits]
  by_cases holds : tid ∈ lock.tids
  · cases vote with
    | true =>
        unfold freezeVisit
        cases status : lock.status with
        | free | freezeReadLock | freezeWriteLock => exact .inl rfl
        | readLock => simp [holds]
        | writeLock =>
            obtain ⟨holder, only⟩ := tidy status
            obtain rfl : tid = holder := by simpa [only] using holds
            simp [only]
    | false =>
        unfold unlockVisit
        cases status : lock.status with
        | free | freezeReadLock | freezeWriteLock => exact .inl rfl
        | readLock | writeLock => simp [sole rfl holds]
  · left
    cases vote with
    | true => cases status : lock.status <;> simp [freezeVisit, status, holds]
    | false => cases status : lock.status <;> simp [unlockVisit, status, holds]

/--
A transaction that lets go of its locks leaves those of the others; what it has
shared with them it freezes when it commits.
-/
structure LeavesOthers (manager : AVLTreeLockManager) (tid : Nat) (vote : Bool)
    (manager' : AVLTreeLockManager) : Prop where
  tidy : manager'.Tidy
  holds : ∀ other, other ≠ tid → ∀ key ts status, manager.Holds other key ts status →
    manager'.Holds other key ts status ∨
      vote = true ∧ status = .readLock ∧ manager.Holds tid key ts .readLock ∧
        manager'.statusAt key ts = some .freezeReadLock

/-- The interval that a timestamp lies in, before and after a release. -/
theorem view_of_scans {visit : Interval → Interval × Bool}
    (scans : Scans visit manager tid manager' events) (lawful : LawfulVisit visit)
    (trees : manager.Trees) (key : Nat) (bound : ts ≤ uintMax) :
    ∃ lock ∈ manager.timeline key, manager.viewAt key ts = some (lock.status, lock.tids) ∧
      manager'.viewAt key ts =
        some ((released visit (manager.record tid key) lock).status,
          (released visit (manager.record tid key) lock).tids) := by
  obtain ⟨lock, known⟩ := exists_covering trees key bound
  refine ⟨lock, ((covering_eq_some trees).1 known).1, ?_, ?_⟩
  · rw [viewAt, known]
    rfl
  · rw [viewAt, scans.covering lawful trees known]
    rfl

/-- A timestamp keeps its interval, or its holder lets go of it. -/
theorem view_of_release {vote : Bool} (key : Nat) (sound : manager.Sound) (tidy : manager.Tidy)
    (sole : vote = false → manager.SoleHolder tid)
    (returned : (if vote then manager.freeze tid else manager.unlock tid) =
      .ok (manager', events)) (bound : ts ≤ uintMax) :
    ∃ status tids, manager.viewAt key ts = some (status, tids) ∧
      (manager'.viewAt key ts = some (status, tids) ∨ ∃ status',
        manager'.viewAt key ts = some (status', ∅) ∧ tid ∈ tids ∧ status' ≠ .writeLock ∧
          (tids = {tid} ∨ vote = true ∧ status = .readLock ∧ status' = .freezeReadLock)) := by
  obtain ⟨visit, visits, lawful, scans⟩ : ∃ visit : Interval → Interval × Bool,
      (∀ lock, visit lock = if vote then freezeVisit tid lock else unlockVisit tid lock) ∧
        LawfulVisit visit ∧ Scans visit manager tid manager' events := by
    cases vote with
    | true =>
        have lawful := lawfulVisit_freezeVisit tid
        exact ⟨_, fun _ => rfl, lawful, (sound.release lawful returned).1⟩
    | false =>
        have lawful := lawfulVisit_unlockVisit tid
        exact ⟨_, fun _ => rfl, lawful, (sound.release lawful returned).1⟩
  obtain ⟨lock, member, view, view'⟩ := view_of_scans scans lawful sound.trees key bound
  refine ⟨lock.status, lock.tids, view, ?_⟩
  rw [view', released]
  split
  · next isMet =>
      have alone : vote = false → tid ∈ lock.tids → lock.tids = {tid} := by
        intro aborts holds
        cases known : manager.transactionMap tid with
        | none => simp [record, known, met] at isMet
        | some info =>
            cases recorded : info.intervals.lookup key with
            | none => simp [record, known, recorded, met] at isMet
            | some range =>
                have isKey := Finmap.mem_keys.2 (Finmap.mem_of_lookup_eq_some recorded)
                exact sole aborts info known key isKey lock member holds
      rcases visit_cases (visits lock) (tidy key ts _ _ view).2 alone with
        same | ⟨holds, none', unwritten, shared⟩
      · rw [same]
        exact .inl rfl
      · rw [none']
        exact .inr ⟨_, rfl, holds, unwritten, shared⟩
  · exact .inl rfl

theorem viewAt_eq_none (trees : manager.Trees) (beyond : ¬ ts ≤ uintMax) :
    manager.viewAt key ts = none := by
  rw [viewAt, covering_eq_none trees (Nat.not_le.1 beyond), Option.map_none]

theorem leavesOthers_of_release {vote : Bool} (sound : manager.Sound) (tidy : manager.Tidy)
    (sole : vote = false → manager.SoleHolder tid) (trees : manager'.Trees)
    (returned : (if vote then manager.freeze tid else manager.unlock tid) =
      .ok (manager', events)) : LeavesOthers manager tid vote manager' where
  tidy := by
    intro key ts status tids view
    by_cases bound : ts ≤ uintMax
    · obtain ⟨status₀, tids₀, old, new | ⟨status', new, -, unwritten, -⟩⟩ :=
        view_of_release key sound tidy sole returned bound
      · exact tidy key ts status tids (old.trans (new.symm.trans view))
      · obtain ⟨rfl, rfl⟩ := Prod.mk.inj (Option.some.inj (view.symm.trans new))
        exact ⟨fun _ => rfl, fun written => absurd written unwritten⟩
    · simp [viewAt_eq_none trees bound] at view
  holds := by
    rintro other differs key ts status ⟨held, tids, view, member⟩
    have bound : ts ≤ uintMax := by
      by_contra beyond
      simp [viewAt_eq_none sound.trees beyond] at view
    obtain ⟨status₀, tids₀, old, new | ⟨status', new, holds, -, alone | ⟨commits, read, frozen⟩⟩⟩ :=
      view_of_release key sound tidy sole returned bound
    all_goals obtain ⟨rfl, rfl⟩ := Prod.mk.inj (Option.some.inj (view.symm.trans old))
    · exact .inl ⟨held, tids, new, member⟩
    · rw [alone, Finset.mem_singleton] at member
      exact absurd member differs
    · subst read
      refine .inr ⟨commits, rfl, ⟨held, tids, view, holds⟩, ?_⟩
      rw [statusAt_eq_viewAt, new, frozen]
      rfl

end Mvtx.Lock
