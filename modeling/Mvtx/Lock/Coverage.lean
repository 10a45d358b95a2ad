import Mvtx.Lock.Calls

/-!
# What a transaction holds lies in what it has recorded

`freeze` and `unlock` only visit the ranges that a transaction has recorded.
As long as no transaction goes on after its own `freeze` or `unlock`, every
interval that it holds lies inside its record, however the interval has been
cut since.  The exact effects of `freeze` and `unlock` follow; that of
`unlock` is the documented one if and only if the transaction shares no
interval.
-/

namespace Mvtx.Lock

open Lib Lib.LinkedTree AVLTreeLockManager

/-! ## Transactions that end -/

/-- The transaction that makes a call. -/
def ManagerCall.tid : ManagerCall → Nat
  | .tryBackwardLock _ tid .. | .tryLock _ tid .. | .freeze tid | .unlock tid => tid

/-- Whether a call ends its transaction. -/
def ManagerCall.Ends : ManagerCall → Prop
  | .freeze _ | .unlock _ => True
  | .tryBackwardLock .. | .tryLock .. => False

instance : (call : ManagerCall) → Decidable call.Ends
  | .freeze _ | .unlock _ => inferInstanceAs (Decidable True)
  | .tryBackwardLock .. | .tryLock .. => inferInstanceAs (Decidable False)

/-- No transaction makes a call after its own `freeze` or `unlock`. -/
def Retiring (calls : List ManagerCall) : Prop :=
  calls.Pairwise fun earlier later => earlier.Ends → later.tid ≠ earlier.tid

instance (calls : List ManagerCall) : Decidable (Retiring calls) :=
  inferInstanceAs (Decidable (List.Pairwise _ _))

/-! ## Whose record a call touches -/

section Records

variable {manager manager' : AVLTreeLockManager} {key tid other : Nat}

theorem transactionMap_createKeyInfo
    (created : manager.createKeyInfo key = .ok manager') :
    manager'.transactionMap = manager.transactionMap := by
  unfold createKeyInfo at created
  split at created
  · cases created
    rfl
  · cases fresh : newKeyInfo with
    | error fault => simp [fresh, bind, Except.bind] at created
    | ok info =>
        simp only [fresh, bind, Except.bind, pure, Except.pure, Except.ok.injEq] at created
        rw [← created]

theorem transactionMap_addTransactionLock {tsStart tsEnd : Nat} (different : other ≠ tid) :
    (manager.addTransactionLock tid key tsStart tsEnd).transactionMap other =
      manager.transactionMap other :=
  Function.update_of_ne different _ _

theorem transactionMap_tryBackwardLock {tsEnd event tsStart low : Nat} {isRead res : Bool}
    (returned : manager.tryBackwardLock key tid tsEnd isRead event tsStart =
      .ok (manager', res, low))
    (different : other ≠ tid) :
    manager'.transactionMap other = manager.transactionMap other := by
  unfold tryBackwardLock at returned
  cases created : manager.createKeyInfo key with
  | error fault => simp [created, bind, Except.bind] at returned
  | ok manager₁ =>
      rw [← transactionMap_createKeyInfo created]
      simp only [created, bind, Except.bind] at returned
      split at returned
      · exact absurd returned (by simp)
      split at returned
      · exact absurd returned (by simp)
      split at returned
      · exact absurd returned (by simp)
      next walked _ =>
        obtain ⟨info, exit, curTs, res'⟩ := walked
        cases exit <;>
          simp only [pure, Except.pure, Except.ok.injEq, Prod.mk.injEq] at returned <;>
          obtain ⟨rfl, -, -⟩ := returned
        · exact transactionMap_addTransactionLock different
        · rfl
        · rfl

theorem transactionMap_tryLock {tsStart tsEnd : Nat} {isRead res : Bool}
    (returned : manager.tryLock key tid tsStart tsEnd isRead = .ok (manager', res))
    (different : other ≠ tid) :
    manager'.transactionMap other = manager.transactionMap other := by
  unfold tryLock at returned
  cases created : manager.createKeyInfo key with
  | error fault => simp [created, bind, Except.bind] at returned
  | ok manager₁ =>
      rw [← transactionMap_createKeyInfo created]
      simp only [created, bind, Except.bind] at returned
      split at returned
      · exact absurd returned (by simp)
      split at returned
      · exact absurd returned (by simp)
      split at returned
      · exact absurd returned (by simp)
      split at returned
      · simp only [pure, Except.pure, Except.ok.injEq, Prod.mk.injEq] at returned
        obtain ⟨rfl, -⟩ := returned
        rfl
      · split at returned
        · exact absurd returned (by simp)
        · simp only [pure, Except.pure, Except.ok.injEq, Prod.mk.injEq] at returned
          obtain ⟨rfl, -⟩ := returned
          exact transactionMap_addTransactionLock different

end Records

/-! ## What freeze and unlock leave alone -/

/-- Two versions of a key's information with the same tree and the same events. -/
structure SameTree (info info' : KeyInfo) : Prop where
  root : info'.root = info.root
  links : info'.heap.links = info.heap.links
  events : info'.events = info.events

/-- Two lock managers with the same keys and the same trees. -/
def SameTrees (manager manager' : AVLTreeLockManager) : Prop :=
  ∀ key, (manager.keyMap key = none ∧ manager'.keyMap key = none) ∨
    ∃ info info', manager.keyMap key = some info ∧ manager'.keyMap key = some info' ∧
      SameTree info info'

section Frame

variable {visit : Interval → Interval × Bool} {manager manager' : AVLTreeLockManager}
  {events events' : Finset Nat}

theorem SameTree.trans {info info' info'' : KeyInfo} (earlier : SameTree info info')
    (later : SameTree info' info'') : SameTree info info'' :=
  ⟨later.root.trans earlier.root, later.links.trans earlier.links,
    later.events.trans earlier.events⟩

theorem sameTree_scanLoop {tsStart tsEnd fuel : Nat} {info info' : KeyInfo}
    {locks : List Address}
    (scanned : scanLoop visit tsStart fuel info locks tsEnd events = .ok (info', events')) :
    SameTree info info' := by
  induction fuel generalizing info locks tsEnd events with
  | zero => simp [scanLoop] at scanned
  | succ fuel ih =>
      unfold scanLoop at scanned
      split at scanned
      · simp only [Except.ok.injEq, Prod.mk.injEq] at scanned
        obtain ⟨rfl, -⟩ := scanned
        exact ⟨rfl, rfl, rfl⟩
      · simp only [bind, Except.bind] at scanned
        split at scanned
        · exact absurd scanned (by simp)
        split at scanned
        · exact absurd scanned (by simp)
        have later := ih scanned
        exact ⟨later.root, later.links, later.events⟩

theorem scanKeys_frame {intervals : Finmap fun _ : Nat => Nat × Nat} {keys : List Nat}
    (scanned : scanKeys visit intervals keys manager events = .ok (manager', events')) :
    SameTrees manager manager' ∧ manager'.transactionMap = manager.transactionMap := by
  induction keys generalizing manager events with
  | nil =>
      simp only [scanKeys, Except.ok.injEq, Prod.mk.injEq] at scanned
      obtain ⟨rfl, -⟩ := scanned
      refine ⟨fun key => ?_, rfl⟩
      cases manager.keyMap key with
      | none => exact .inl ⟨rfl, rfl⟩
      | some info => exact .inr ⟨info, info, rfl, rfl, rfl, rfl, rfl⟩
  | cons key keys ih =>
      unfold scanKeys at scanned
      split at scanned
      · next info recorded present _ =>
          simp only [bind, Except.bind] at scanned
          split at scanned
          · exact absurd scanned (by simp)
          next visited scannedKey =>
            obtain ⟨info', events₁⟩ := visited
            obtain ⟨later, sameMap⟩ := ih scanned
            refine ⟨fun other => ?_, sameMap⟩
            by_cases same : other = key
            · subst same
              have here : SameTree info info' := by
                simp only [scanKey, bind, Except.bind] at scannedKey
                split at scannedKey
                · exact absurd scannedKey (by simp)
                · exact sameTree_scanLoop scannedKey
              rcases later other with ⟨absent, -⟩ | ⟨middle, last, isMiddle, isLast, same⟩
              · simp [setKeyInfo] at absent
              · obtain rfl : info' = middle := by simpa [setKeyInfo] using isMiddle
                exact .inr ⟨info, last, present, isLast, here.trans same⟩
            · simpa [setKeyInfo, same] using later other
      · exact ih scanned

theorem release_frame {tid : Nat}
    (returned : release visit manager tid = .ok (manager', events)) :
    SameTrees manager manager' ∧ manager'.transactionMap tid = none ∧
      ∀ other, other ≠ tid →
        manager'.transactionMap other = manager.transactionMap other := by
  unfold release at returned
  split at returned
  · next absent =>
      simp only [Except.ok.injEq, Prod.mk.injEq] at returned
      obtain ⟨rfl, -⟩ := returned
      refine ⟨fun key => ?_, absent, fun _ _ => rfl⟩
      cases manager.keyMap key with
      | none => exact .inl ⟨rfl, rfl⟩
      | some info => exact .inr ⟨info, info, rfl, rfl, rfl, rfl, rfl⟩
  · simp only [bind, Except.bind] at returned
    split at returned
    · exact absurd returned (by simp)
    next scanned isScanned =>
      obtain ⟨manager₁, events₁⟩ := scanned
      obtain ⟨trees, sameMap⟩ := scanKeys_frame isScanned
      simp only [pure, Except.pure, Except.ok.injEq, Prod.mk.injEq] at returned
      obtain ⟨rfl, -⟩ := returned
      refine ⟨trees, by simp, fun other different => ?_⟩
      simp [different, sameMap]

end Frame

/-! ## The invariant -/

/-- An interval lies inside what a transaction has recorded. -/
def Inside (recorded : Option (Nat × Nat)) (lock : Interval) : Prop :=
  ∃ low high, recorded = some (low, high) ∧ low ≤ lock.startTs ∧ lock.endTs ≤ high

/--
The transactions that have ended have no record, the others have recorded all
that they hold, and nothing that is frozen is held by anyone.
-/
structure Covered (ended : Nat → Prop) (manager : AVLTreeLockManager) : Prop where
  wellFormed : manager.WellFormed
  gone : ∀ tid, ended tid → manager.transactionMap tid = none
  inside : ∀ tid key, ¬ ended tid → ∀ lock ∈ manager.timeline key, tid ∈ lock.tids →
    Inside (manager.record tid key) lock
  cleared : ∀ key, ∀ lock ∈ manager.timeline key, lock.status.frozen = true →
    lock.tids = ∅

theorem Inside.widen {recorded : Option (Nat × Nat)} {lock : Interval}
    (inside : Inside recorded lock) (tsStart tsEnd : Nat) :
    Inside (some (widen recorded tsStart tsEnd)) lock := by
  obtain ⟨low, high, rfl, starts, ends⟩ := inside
  refine ⟨_, _, rfl, ?_, ?_⟩ <;> split <;> omega

theorem Inside.of_range {recorded : Option (Nat × Nat)} {lock : Interval}
    {tsStart tsEnd : Nat} (starts : tsStart ≤ lock.startTs) (ends : lock.endTs ≤ tsEnd) :
    Inside (some (AVLTreeLockManager.widen recorded tsStart tsEnd)) lock := by
  refine ⟨_, _, rfl, ?_, ?_⟩ <;> rcases recorded with - | ⟨low, high⟩
  · exact starts
  · simp only
    split <;> omega
  · exact ends
  · simp only
    split <;> omega

theorem Inside.part {recorded : Option (Nat × Nat)} {lock part : Interval}
    (inside : Inside recorded lock) (starts : lock.startTs ≤ part.startTs)
    (ends : part.endTs ≤ lock.endTs) : Inside recorded part := by
  obtain ⟨low, high, known, low_le, le_high⟩ := inside
  exact ⟨low, high, known, by omega, by omega⟩

/-- What is held inside a record is met by the visits to it. -/
theorem Inside.met {recorded : Option (Nat × Nat)} {lock : Interval}
    (inside : Inside recorded lock) (ordered : lock.startTs ≤ lock.endTs) :
    met recorded lock = true := by
  obtain ⟨low, high, rfl, starts, ends⟩ := inside
  exact met_eq_true.2 ⟨by omega, by omega, by omega⟩

/-- A visit adds no holders, and leaves none where it freezes. -/
structure Loosens (visit : Interval → Interval × Bool) : Prop where
  tids : ∀ lock, (visit lock).1.tids ⊆ lock.tids
  cleared : ∀ lock, (lock.status.frozen = true → lock.tids = ∅) →
    (visit lock).1.status.frozen = true → (visit lock).1.tids = ∅

theorem loosens_freezeVisit (tid : Nat) : Loosens (freezeVisit tid) := by
  constructor <;> intro lock <;> unfold freezeVisit <;>
    cases status : lock.status <;> simp only [] <;> (try split) <;>
    simp_all [LockStatus.frozen]

theorem loosens_unlockVisit (tid : Nat) : Loosens (unlockVisit tid) := by
  constructor <;> intro lock <;> unfold unlockVisit <;>
    cases status : lock.status <;> simp only [] <;> (try split) <;>
    simp_all [LockStatus.frozen, Finset.erase_subset]

namespace Covered

variable {ended : Nat → Prop} {manager manager' : AVLTreeLockManager} {tid : Nat}

theorem empty : Covered (fun _ => False) AVLTreeLockManager.empty where
  wellFormed := wellFormed_empty
  gone := by simp
  inside := by
    intro tid key _ lock member holder
    have member' : lock ∈ initialTimeline := member
    simp only [initialTimeline, List.mem_cons, List.not_mem_nil, or_false] at member'
    rcases member' with rfl | rfl <;>
      simp [originInterval, futureInterval, AVLTreeLockNode.initial] at holder
  cleared := by
    intro key lock member _
    have member' : lock ∈ initialTimeline := member
    simp only [initialTimeline, List.mem_cons, List.not_mem_nil, or_false] at member'
    rcases member' with rfl | rfl <;> rfl

/-- What a lock operation takes is recorded, and what it cuts stays inside. -/
theorem acquired {key low high : Nat} {isRead : Bool}
    (covered : Covered ended manager) (active : ¬ ended tid)
    (acquired : Acquired manager key tid isRead low high manager')
    (others : ∀ other, other ≠ tid →
      manager'.transactionMap other = manager.transactionMap other) :
    Covered ended manager' where
  wellFormed := acquired.wellFormed
  gone := by
    intro other isEnded
    have different : other ≠ tid := fun same => active (same ▸ isEnded)
    rw [others other different]
    exact covered.gone other isEnded
  inside := by
    intro holder other isActive part member holds
    have widened : ∀ lock, Inside (manager.record holder other) lock →
        Inside (manager'.record holder other) lock := by
      intro lock inside
      rw [acquired.record]
      split
      · next same =>
          obtain ⟨rfl, rfl⟩ := same
          exact inside.widen low high
      · exact inside
    obtain ⟨lock, old, ⟨rfl, piece⟩ | ⟨-, rfl⟩⟩ := acquired.pieces other part member
    · obtain ⟨starts, ends⟩ := piece.within
      have before : holder ∈ lock.tids → Inside (manager'.record holder other) part :=
        fun holds => ((widened lock (covered.inside holder other isActive lock old
          holds)).part starts ends)
      cases piece with
      | same => exact before holds
      | rest _ _ tids => exact before (tids ▸ holds)
      | locked _ _ tids starts ends =>
          rw [tids, Finset.mem_insert] at holds
          rcases holds with rfl | holds
          · rw [acquired.record, if_pos ⟨rfl, rfl⟩]
            exact .of_range (by omega) (by omega)
          · exact before holds
    · exact widened part (covered.inside holder other isActive part old holds)
  cleared := by
    intro other part member frozen
    obtain ⟨lock, old, ⟨-, piece⟩ | ⟨-, rfl⟩⟩ := acquired.pieces other part member
    · cases piece with
      | same => exact covered.cleared other part old frozen
      | rest _ status tids =>
          rw [tids]
          exact covered.cleared other lock old (status ▸ frozen)
      | locked _ status =>
          rw [status] at frozen
          cases isRead <;> exact absurd frozen (by decide)
    · exact covered.cleared other part old frozen

theorem sameView (covered : Covered ended manager) (wellFormed : manager'.WellFormed)
    (same : SameView manager manager') : Covered ended manager' where
  wellFormed := wellFormed
  gone := by rw [same.transactionMap]; exact covered.gone
  inside := by
    intro holder key isActive
    rw [same.timeline, same.record]
    exact covered.inside holder key isActive
  cleared := by
    intro key
    rw [same.timeline]
    exact covered.cleared key

/-- A transaction that ends takes its record with it. -/
theorem released {visit : Interval → Interval × Bool} {events : Finset Nat}
    (covered : Covered ended manager) (lawful : LawfulVisit visit)
    (loosens : Loosens visit)
    (release : Released visit manager tid manager' events)
    (gone : manager'.transactionMap tid = none)
    (others : ∀ other, other ≠ tid →
      manager'.transactionMap other = manager.transactionMap other) :
    Covered (fun other => ended other ∨ other = tid) manager' where
  wellFormed := release.wellFormed
  gone := by
    rintro other isEnded
    by_cases same : other = tid
    · rw [same, gone]
    · rw [others other same]
      exact covered.gone other (isEnded.resolve_right same)
  inside := by
    intro holder key isActive part member holds
    obtain ⟨stillActive, different⟩ := not_or.1 isActive
    rw [release.record, if_neg different]
    rw [release.timeline] at member
    obtain ⟨lock, old, rfl⟩ := List.mem_map.1 member
    unfold Lock.released at holds ⊢
    split at holds
    · next isMet =>
        rw [if_pos isMet]
        exact (covered.inside holder key stillActive lock old (loosens.tids lock holds)).part
          (lawful.startTs lock).ge (lawful.endTs lock).le
    · next notMet =>
        rw [if_neg notMet]
        exact covered.inside holder key stillActive lock old holds
  cleared := by
    intro key part member frozen
    rw [release.timeline] at member
    obtain ⟨lock, old, rfl⟩ := List.mem_map.1 member
    unfold Lock.released at frozen ⊢
    split at frozen
    · next isMet =>
        rw [if_pos isMet]
        exact loosens.cleared lock (covered.cleared key lock old) frozen
    · next notMet =>
        rw [if_neg notMet]
        exact covered.cleared key lock old frozen

/-- One call by a transaction that has not ended. -/
theorem apply {call : ManagerCall} (covered : Covered ended manager)
    (coordinated : call.Coordinated) (active : ¬ ended call.tid)
    (applied : call.apply manager = .ok manager') :
    Covered (fun tid => ended tid ∨ call.Ends ∧ tid = call.tid) manager' := by
  cases call with
  | tryBackwardLock key tid tsEnd isRead event tsStart =>
      obtain ⟨manager₁, stopTs, stop, returned, effect⟩ :=
        tryBackwardLock_eq covered.wellFormed coordinated key tid isRead event tsStart
      simp only [ManagerCall.apply, returned, bind, Except.bind] at applied
      cases applied
      simpa [ManagerCall.Ends] using covered.acquired active effect.acquired
        fun other different => transactionMap_tryBackwardLock returned different
  | tryLock key tid tsStart tsEnd isRead =>
      obtain ⟨rfl, bound⟩ := coordinated
      obtain ⟨manager₁, lock, -, -, ⟨-, returned, wellFormed, same⟩ |
        ⟨pends, -, returned, effect⟩⟩ :=
        tryLock_point covered.wellFormed key bound tid isRead
      all_goals
        simp only [ManagerCall.apply, returned, bind, Except.bind] at applied
        cases applied
      · simpa [ManagerCall.Ends] using covered.sameView wellFormed same
      · simpa [ManagerCall.Ends] using covered.acquired active effect.acquired
          fun other different => transactionMap_tryLock returned different
  | freeze tid =>
      obtain ⟨manager₁, events, returned, effect⟩ := freeze_eq covered.wellFormed tid
      simp only [ManagerCall.apply, returned, bind, Except.bind] at applied
      cases applied
      obtain ⟨-, gone, others⟩ := release_frame returned
      simpa [ManagerCall.Ends, ManagerCall.tid] using
        covered.released (lawfulVisit_freezeVisit tid) (loosens_freezeVisit tid) effect
          gone others
  | unlock tid =>
      obtain ⟨manager₁, events, returned, effect⟩ := unlock_eq covered.wellFormed tid
      simp only [ManagerCall.apply, returned, bind, Except.bind] at applied
      cases applied
      obtain ⟨-, gone, others⟩ := release_frame returned
      simpa [ManagerCall.Ends, ManagerCall.tid] using
        covered.released (lawfulVisit_unlockVisit tid) (loosens_unlockVisit tid) effect
          gone others

/-- A run in which nobody goes on after the end keeps the invariant. -/
theorem run {calls : List ManagerCall} (covered : Covered ended manager)
    (coordinated : ∀ call ∈ calls, call.Coordinated) (retiring : Retiring calls)
    (active : ∀ call ∈ calls, ¬ ended call.tid)
    (ran : run ManagerCall.apply manager calls = .ok manager') :
    ∃ ended', Covered ended' manager' := by
  induction calls generalizing ended manager with
  | nil =>
      obtain rfl : manager = manager' := by simpa [Lib.run] using ran
      exact ⟨ended, covered⟩
  | cons call calls ih =>
      rw [Lib.run] at ran
      split at ran
      · next manager₁ applied =>
          obtain ⟨later, retiring'⟩ := List.pairwise_cons.1 retiring
          refine ih (covered.apply (coordinated call (by simp)) (active call (by simp))
            applied) (fun other member => coordinated other (by simp [member])) retiring'
            (fun other member => ?_) ran
          rintro (isEnded | ⟨ends, same⟩)
          · exact active other (by simp [member]) isEnded
          · exact later other member ends same
      · exact absurd ran (by simp)

end Covered

/-- The state that retiring calls lead to. -/
theorem exists_covered (calls : List ManagerCall)
    (coordinated : ∀ call ∈ calls, call.Coordinated) (retiring : Retiring calls) :
    ∃ manager ended, Lib.run ManagerCall.apply empty calls = .ok manager ∧
      Covered ended manager := by
  obtain ⟨manager, ran, -⟩ := run_wellFormed wellFormed_empty coordinated
  obtain ⟨ended, covered⟩ := Covered.empty.run coordinated retiring (by simp) ran
  exact ⟨manager, ended, ran, covered⟩

/-- A transaction with a record has not ended. -/
theorem Covered.active {ended : Nat → Prop} {manager : AVLTreeLockManager} {tid : Nat}
    (covered : Covered ended manager) (recorded : manager.transactionMap tid ≠ none) :
    ¬ ended tid :=
  fun isEnded => recorded (covered.gone tid isEnded)

/-! ## The exact effect of freeze -/

/-- What `freeze` is to make of an interval. -/
def frozenFor (tid : Nat) (lock : Interval) : Interval :=
  if tid ∈ lock.tids then
    match lock.status with
    | .readLock => { lock with status := .freezeReadLock, tids := ∅ }
    | .writeLock => { lock with status := .freezeWriteLock, tids := ∅ }
    | .free | .freezeReadLock | .freezeWriteLock => lock
  else lock

/-- Whether a transaction holds a read lock or a write lock on an interval. -/
def HeldBy (tid : Nat) (lock : Interval) : Prop :=
  tid ∈ lock.tids ∧ (lock.status = .readLock ∨ lock.status = .writeLock)

/-- `freeze` freezes exactly the locks of a transaction. -/
structure Freezes (manager : AVLTreeLockManager) (tid : Nat)
    (manager' : AVLTreeLockManager) (events : Finset Nat) : Prop where
  trees : SameTrees manager manager'
  timeline : ∀ key, manager'.timeline key = (manager.timeline key).map (frozenFor tid)
  notHeld : ∀ key, ∀ lock ∈ manager'.timeline key, ¬ HeldBy tid lock
  gone : manager'.transactionMap tid = none
  others : ∀ other, other ≠ tid →
    manager'.transactionMap other = manager.transactionMap other
  collected : ∀ event, event ∈ events ↔
    ∃ key, ∃ lock ∈ manager.timeline key, HeldBy tid lock ∧
      event ∈ manager.eventsAt key lock.endTs

theorem freezeVisit_eq (tid : Nat) (lock : Interval) :
    (freezeVisit tid lock).1 = frozenFor tid lock ∧
      ((freezeVisit tid lock).2 = true ↔ HeldBy tid lock) := by
  unfold freezeVisit frozenFor HeldBy
  cases status : lock.status <;> by_cases holder : tid ∈ lock.tids <;> simp [holder]

theorem not_heldBy_frozenFor (tid : Nat) (lock : Interval) :
    ¬ HeldBy tid (frozenFor tid lock) := by
  unfold HeldBy frozenFor
  cases status : lock.status <;> by_cases holder : tid ∈ lock.tids <;>
    simp [holder, status]

/-- A visit to what is recorded is a visit to everything if it only changes what is held. -/
theorem released_eq_visit {visit : Interval → Interval × Bool}
    {recorded : Option (Nat × Nat)} {lock : Interval} {tid : Nat}
    (ordered : lock.startTs ≤ lock.endTs)
    (inside : tid ∈ lock.tids → Inside recorded lock)
    (idle : tid ∉ lock.tids → (visit lock).1 = lock) :
    Lock.released visit recorded lock = (visit lock).1 := by
  unfold Lock.released
  split
  · rfl
  · next notMet =>
      exact (idle fun holder => notMet ((inside holder).met ordered)).symm

/--
The exact effect of `freeze`, in every state that calls of transactions which
stop at their end lead to.
-/
theorem freeze_exact (calls : List ManagerCall)
    (coordinated : ∀ call ∈ calls, call.Coordinated) (retiring : Retiring calls)
    (tid : Nat) :
    ∃ manager, Lib.run ManagerCall.apply empty calls = .ok manager ∧
      (manager.transactionMap tid ≠ none →
        ∃ manager' events, manager.freeze tid = .ok (manager', events) ∧
          Freezes manager tid manager' events) := by
  obtain ⟨manager, ended, ran, covered⟩ := exists_covered calls coordinated retiring
  refine ⟨manager, ran, fun recorded => ?_⟩
  obtain ⟨manager', events, returned, effect⟩ := freeze_eq covered.wellFormed tid
  obtain ⟨trees, gone, others⟩ := release_frame returned
  have active := covered.active recorded
  have ordered : ∀ key, ∀ lock ∈ manager.timeline key, lock.startTs ≤ lock.endTs :=
    fun key lock member => ((covered.wellFormed.isTimeline key).ordered member).1
  have timeline : ∀ key,
      manager'.timeline key = (manager.timeline key).map (frozenFor tid) := by
    intro key
    rw [effect.timeline]
    refine List.map_congr_left fun lock member => ?_
    rw [← (freezeVisit_eq tid lock).1]
    refine released_eq_visit (ordered key lock member)
      (covered.inside tid key active lock member) fun notHolder => ?_
    rw [(freezeVisit_eq tid lock).1, frozenFor, if_neg notHolder]
  refine ⟨manager', events, returned, trees, timeline, fun key lock member => ?_, gone,
    others, fun event => ?_⟩
  · rw [timeline] at member
    obtain ⟨before, -, rfl⟩ := List.mem_map.1 member
    exact not_heldBy_frozenFor tid before
  · rw [effect.collected]
    refine exists_congr fun key => exists_congr fun lock => ?_
    rw [(freezeVisit_eq tid lock).2]
    refine and_congr_right fun member => ⟨fun known => known.2, fun known => ⟨?_, known⟩⟩
    exact (covered.inside tid key active lock member known.1.1).met (ordered key lock member)

/-- One of two readers who share `[1, 9]` commits. -/
theorem freeze_exact_of_shared_read :
    ∃ manager, Lib.run ManagerCall.apply empty
        [.tryBackwardLock 7 1 9 true 0 0, .tryBackwardLock 7 2 19 true 1 0] = .ok manager ∧
      ∃ manager' events, manager.freeze 1 = .ok (manager', events) ∧
        Freezes manager 1 manager' events := by
  obtain ⟨manager, ran, freezes⟩ := freeze_exact
    [.tryBackwardLock 7 1 9 true 0 0, .tryBackwardLock 7 2 19 true 1 0] (by decide)
    (by decide) 1
  have recorded : ends ManagerCall.apply (fun manager => (manager.transactionMap 1).isSome)
      empty [.tryBackwardLock 7 1 9 true 0 0, .tryBackwardLock 7 2 19 true 1 0] = true := by
    decide
  rw [ends, ran] at recorded
  exact ⟨manager, ran, freezes fun absent => by simp [absent] at recorded⟩

/-! ## The exact effect of unlock -/

/-- What `unlock` is to make of an interval. -/
def unlockedFor (tid : Nat) (lock : Interval) : Interval :=
  if lock.tids = {tid} then { lock with status := .free, tids := ∅ }
  else if lock.status = .readLock then { lock with tids := lock.tids.erase tid }
  else lock

/-- `unlock` releases exactly the locks of a transaction. -/
structure Unlocks (manager : AVLTreeLockManager) (tid : Nat)
    (manager' : AVLTreeLockManager) (events : Finset Nat) : Prop where
  timeline : ∀ key, manager'.timeline key = (manager.timeline key).map (unlockedFor tid)
  notHolder : ∀ key, ∀ lock ∈ manager'.timeline key, tid ∉ lock.tids
  gone : manager'.transactionMap tid = none
  collected : ∀ event, event ∈ events ↔
    ∃ key, ∃ lock ∈ manager.timeline key,
      lock.status ≠ .free ∧ (unlockedFor tid lock).status = .free ∧
        event ∈ manager.eventsAt key lock.endTs

/-- A transaction is alone on every interval whose holders it is among, none of them free. -/
def HoldsAlone (manager : AVLTreeLockManager) (tid : Nat) : Prop :=
  ∀ key, ∀ lock ∈ manager.timeline key, tid ∈ lock.tids →
    lock.tids = {tid} ∧ lock.status ≠ .free

/-- What `unlock` makes of an interval that the transaction holds alone, or not at all. -/
theorem unlockVisit_of_alone {tid : Nat} {lock : Interval}
    (alone : tid ∈ lock.tids → lock.tids = {tid} ∧ lock.status ≠ .free)
    (cleared : lock.status.frozen = true → lock.tids = ∅) :
    (unlockVisit tid lock).1 = unlockedFor tid lock ∧
      ((unlockVisit tid lock).2 = true ↔
        lock.status ≠ .free ∧ (unlockedFor tid lock).status = .free) := by
  by_cases holder : tid ∈ lock.tids
  · obtain ⟨tids, notFree⟩ := alone holder
    unfold unlockVisit unlockedFor
    cases status : lock.status <;> simp_all [LockStatus.frozen]
  · have others : lock.tids ≠ {tid} := fun same => holder (by simp [same])
    obtain ⟨status, starts, ends, tids⟩ := lock
    cases status <;>
      simp_all [unlockVisit, unlockedFor, Finset.erase_eq_of_notMem]

/-- What `unlock` makes of a lock that others hold as well is not what it is to make. -/
theorem unlockVisit_ne_of_shared {tid : Nat} {lock : Interval} (held : HeldBy tid lock)
    (shared : lock.tids ≠ {tid}) : (unlockVisit tid lock).1 ≠ unlockedFor tid lock := by
  obtain ⟨holder, read | write⟩ := held
  · simp [unlockVisit, unlockedFor, read, holder, shared]
  · intro same
    have := congrArg Interval.status same
    simp [unlockVisit, unlockedFor, write, holder, shared] at this

/-- `unlock` does what it is to do exactly for a transaction that shares nothing. -/
theorem unlocks_iff_holdsAlone
    {ended : Nat → Prop} {manager manager' : AVLTreeLockManager} {tid : Nat}
    {events : Finset Nat}
    (covered : Covered ended manager) (active : ¬ ended tid)
    (returned : manager.unlock tid = .ok (manager', events)) :
    Unlocks manager tid manager' events ↔ HoldsAlone manager tid := by
  obtain ⟨manager₁, events₁, returned₁, effect⟩ := unlock_eq covered.wellFormed tid
  obtain ⟨rfl, rfl⟩ : manager₁ = manager' ∧ events₁ = events := by
    simpa [returned] using returned₁.symm
  have ordered : ∀ key, ∀ lock ∈ manager.timeline key, lock.startTs ≤ lock.endTs :=
    fun key lock member => ((covered.wellFormed.isTimeline key).ordered member).1
  have visits : ∀ key, ∀ lock ∈ manager.timeline key,
      Lock.released (unlockVisit tid) (manager.record tid key) lock =
        (unlockVisit tid lock).1 := by
    intro key lock member
    refine released_eq_visit (ordered key lock member)
      (covered.inside tid key active lock member) fun notHolder => ?_
    unfold unlockVisit
    cases lock.status <;> simp [notHolder]
  constructor
  · intro unlocks key lock member holder
    -- The interval has become what `unlockedFor` says, and is not held any more.
    have becomes : (unlockVisit tid lock).1 = unlockedFor tid lock := by
      have same := unlocks.timeline key
      rw [effect.timeline, List.map_inj_left] at same
      rw [← visits key lock member, same lock member]
    have notHolder : tid ∉ (unlockVisit tid lock).1.tids := by
      refine unlocks.notHolder key _ ?_
      rw [effect.timeline, ← visits key lock member]
      exact List.mem_map_of_mem member
    have notFree : lock.status ≠ .free := by
      intro free
      simp only [unlockVisit, free] at notHolder
      exact notHolder holder
    refine ⟨?_, notFree⟩
    by_contra shared
    have held : lock.status = .readLock ∨ lock.status = .writeLock := by
      cases status : lock.status with
      | free => exact absurd status notFree
      | readLock => exact .inl rfl
      | writeLock => exact .inr rfl
      | freezeReadLock | freezeWriteLock =>
          have := covered.cleared key lock member (by rw [status]; rfl)
          simp [this] at holder
    exact unlockVisit_ne_of_shared ⟨holder, held⟩ shared becomes
  · intro alone
    have visited := fun key lock (member : lock ∈ manager.timeline key) =>
      unlockVisit_of_alone (alone key lock member) (covered.cleared key lock member)
    have timeline : ∀ key,
        manager₁.timeline key = (manager.timeline key).map (unlockedFor tid) := by
      intro key
      rw [effect.timeline]
      exact List.map_congr_left fun lock member =>
        (visits key lock member).trans (visited key lock member).1
    refine ⟨timeline, fun key lock member => ?_, (release_frame returned).2.1,
      fun event => ?_⟩
    · rw [timeline] at member
      obtain ⟨before, old, rfl⟩ := List.mem_map.1 member
      unfold unlockedFor
      split
      · simp
      · next others =>
          have notHolder : tid ∉ before.tids := fun holder =>
            others (alone key before old holder).1
          split <;> simp [notHolder]
    · rw [effect.collected]
      refine exists_congr fun key => exists_congr fun lock => and_congr_right fun member => ?_
      rw [(visited key lock member).2, and_assoc]
      refine and_iff_right_of_imp fun ⟨notFree, free, _⟩ => ?_
      have holder : tid ∈ lock.tids := by
        by_contra notHolder
        unfold unlockedFor at free
        split at free
        · next tids => simp [tids] at notHolder
        · split at free <;> exact notFree free
      exact (covered.inside tid key active lock member holder).met (ordered key lock member)

/--
In every state that calls of transactions which stop at their end lead to,
`unlock` returns, and it releases exactly the locks of its transaction if and
only if that holds every interval alone.
-/
theorem unlock_exact_iff (calls : List ManagerCall)
    (coordinated : ∀ call ∈ calls, call.Coordinated) (retiring : Retiring calls)
    (tid : Nat) :
    ∃ manager, Lib.run ManagerCall.apply empty calls = .ok manager ∧
      (manager.transactionMap tid ≠ none →
        ∃ manager' events, manager.unlock tid = .ok (manager', events) ∧
          (Unlocks manager tid manager' events ↔ HoldsAlone manager tid)) := by
  obtain ⟨manager, ended, ran, covered⟩ := exists_covered calls coordinated retiring
  refine ⟨manager, ran, fun recorded => ?_⟩
  obtain ⟨manager', events, returned, -⟩ := unlock_eq covered.wellFormed tid
  exact ⟨manager', events, returned,
    unlocks_iff_holdsAlone covered (covered.active recorded) returned⟩

/-- A reader of `[1, 9]` next to a writer of `12`. -/
theorem unlock_exact_iff_of_read :
    ∃ manager, Lib.run ManagerCall.apply empty
        [.tryBackwardLock 7 1 9 true 0 0, .tryLock 7 2 12 12 false] = .ok manager ∧
      ∃ manager' events, manager.unlock 1 = .ok (manager', events) ∧
        (Unlocks manager 1 manager' events ↔ HoldsAlone manager 1) := by
  obtain ⟨manager, ran, unlocks⟩ := unlock_exact_iff
    [.tryBackwardLock 7 1 9 true 0 0, .tryLock 7 2 12 12 false] (by decide) (by decide) 1
  have recorded : ends ManagerCall.apply (fun manager => (manager.transactionMap 1).isSome)
      empty [.tryBackwardLock 7 1 9 true 0 0, .tryLock 7 2 12 12 false] = true := by
    decide
  rw [ends, ran] at recorded
  exact ⟨manager, ran, unlocks fun absent => by simp [absent] at recorded⟩

/-- Two readers share `[1, 9]`; the `unlock` of the first one frees it for both. -/
theorem not_unlocks_of_shared_read :
    ∃ manager, Lib.run ManagerCall.apply empty
        [.tryBackwardLock 7 1 9 true 0 0, .tryBackwardLock 7 2 19 true 1 0] = .ok manager ∧
      manager.transactionMap 1 ≠ none ∧
        ∃ manager' events, manager.unlock 1 = .ok (manager', events) ∧
          ¬ Unlocks manager 1 manager' events := by
  obtain ⟨manager, ended, ran, covered⟩ := exists_covered
    [.tryBackwardLock 7 1 9 true 0 0, .tryBackwardLock 7 2 19 true 1 0] (by decide)
    (by decide)
  have facts : ends ManagerCall.apply (fun manager =>
      (manager.transactionMap 1).isSome &&
        decide (∃ lock ∈ manager.timeline 7, lock.tids = {1, 2})) empty
      [.tryBackwardLock 7 1 9 true 0 0, .tryBackwardLock 7 2 19 true 1 0] = true := by
    decide
  rw [ends, ran] at facts
  simp only [Bool.and_eq_true, decide_eq_true_eq] at facts
  obtain ⟨recorded, lock, shared, tids⟩ := facts
  have recorded' : manager.transactionMap 1 ≠ none := by
    intro absent
    simp [absent] at recorded
  obtain ⟨manager', events, returned, -⟩ := unlock_eq covered.wellFormed 1
  refine ⟨manager, ran, recorded', manager', events, returned, fun unlocks => ?_⟩
  have alone := (unlocks_iff_holdsAlone covered (covered.active recorded') returned).1 unlocks
  have same := (alone 7 lock shared (by simp [tids])).1
  rw [tids] at same
  exact absurd same (by decide)

end Mvtx.Lock
