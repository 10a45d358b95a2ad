import Mvtx.Lock.Exclusion
import Mvtx.Lock.Pointwise
import Mvtx.Lock.Visits

/-!
# The exact effect of tryLock

`tryLock` of a range decides by the intervals that its search visits.  These
need not be the intervals of the range: those in the left subtree of another
one are hidden from it, and it may end at the interval just below the range.
The documented effect is had exactly if what is hidden makes no difference.
-/

namespace Mvtx.Lock

open Lib Lib.AvlTree Lib.LinkedTree AVLTreeLockNode AVLTreeLockManager

/-! ## What the search misses -/

namespace AVLTreeLockManager

/-- An interval of a range that is not hidden refuses the lock. -/
def RefusedInSight (manager : AVLTreeLockManager) (key tsStart tsEnd : Nat) (isRead : Bool) :
    Prop :=
  ∃ lock, manager.InRange key tsStart tsEnd lock ∧
    ¬ manager.Hidden key tsStart tsEnd lock ∧ lock.status.passes isRead = false

/--
A call takes no lock below its range: what ends right below cannot be locked,
unless the interval that starts with the range is in sight or one in sight refuses.
-/
def StaysWithin (manager : AVLTreeLockManager) (key tsStart tsEnd : Nat) (isRead : Bool) :
    Prop :=
  manager.StartHidden key tsStart tsEnd → ∀ status,
    manager.statusAt key (tsStart - 1) = some status → status.Lockable isRead →
      manager.RefusedInSight key tsStart tsEnd isRead

/-- A read has nothing to do: the interval is frozen by reads or held by its transaction. -/
def Served (tid : Nat) (isRead : Bool) (lock : Interval) : Prop :=
  isRead = true ∧
    (lock.status = .freezeReadLock ∨ lock.status = .readLock ∧ tid ∈ lock.tids)

/--
What is hidden makes no difference to a call.  Either an interval in sight
refuses the lock; or there is nothing to do in what is hidden nor, if the
interval that starts with the range is hidden, in the one below; or that is
hidden and the one below refuses, as does one that is hidden.
-/
def HiddenHarmless (manager : AVLTreeLockManager) (key tid tsStart tsEnd : Nat)
    (isRead : Bool) : Prop :=
  manager.RefusedInSight key tsStart tsEnd isRead ∨
    (∀ lock, manager.Hidden key tsStart tsEnd lock → Served tid isRead lock) ∧
      (manager.StartHidden key tsStart tsEnd →
        manager.statusAt key (tsStart - 1) = some .freezeReadLock) ∨
    manager.StartHidden key tsStart tsEnd ∧
      (∃ status, manager.statusAt key (tsStart - 1) = some status ∧
        status.passes isRead = false) ∧
      ∃ lock, manager.Hidden key tsStart tsEnd lock ∧ lock.status.passes isRead = false

/-- A search that meets no refusal takes no lock on what ends below the range. -/
def VisitsWithin (manager : AVLTreeLockManager) (key tsStart tsEnd : Nat) (isRead : Bool) :
    Prop :=
  (∀ lock, manager.Visits key tsStart tsEnd lock → lock.status.passes isRead = true) →
    ∀ lock, manager.Visits key tsStart tsEnd lock → lock.status.Lockable isRead →
      tsStart ≤ lock.endTs

/--
The visited intervals do duty for those of the range: they refuse the lock if
and only if those do, and if they do not, then everything in the range that
still has to be locked is visited, and nothing below it is locked.
-/
structure VisitsSuffice (manager : AVLTreeLockManager) (key tid tsStart tsEnd : Nat)
    (isRead : Bool) : Prop where
  verdict : (∀ lock, manager.Visits key tsStart tsEnd lock →
      lock.status.passes isRead = true) ↔
    ∀ lock, manager.InRange key tsStart tsEnd lock → lock.status.passes isRead = true
  complete : (∀ lock, manager.Visits key tsStart tsEnd lock →
      lock.status.passes isRead = true) →
    ∀ lock, manager.InRange key tsStart tsEnd lock → lock.status.Lockable isRead →
      manager.Visits key tsStart tsEnd lock ∨ lock.status = .readLock ∧ tid ∈ lock.tids
  within : manager.VisitsWithin key tsStart tsEnd isRead

end AVLTreeLockManager

/-- The documented effect of `tryLock`. -/
structure LocksRange (manager : AVLTreeLockManager) (key tid tsStart tsEnd : Nat)
    (isRead res : Bool) (manager' : AVLTreeLockManager) : Prop where
  result : res = true ↔ ∀ ts, tsStart ≤ ts → ts ≤ tsEnd →
    ∃ lock, manager.covering key ts = some lock ∧ lock.status.passes isRead = true
  viewAt : res = true → ∀ other ts, manager'.viewAt other ts =
    if other = key ∧ tsStart ≤ ts ∧ ts ≤ tsEnd then
      (manager.viewAt key ts).map (take tid isRead)
    else manager.viewAt other ts
  tiles : res = true → IsTimeline (manager'.timeline key)
  refused : res = false → SameView manager manager'

/-! ## What is visited and what should be -/

variable {manager : AVLTreeLockManager} {key tid tsStart tsEnd : Nat} {isRead : Bool}

theorem served_iff {lock : Interval} :
    Served tid isRead lock ↔ lock.status.passes isRead = true ∧
      (lock.status.Lockable isRead → lock.status = .readLock ∧ tid ∈ lock.tids) := by
  cases status : lock.status <;> cases isRead <;>
    simp [Served, status, LockStatus.passes, LockStatus.Lockable]

theorem passes_of_lockable {status : LockStatus} (lockable : status.Lockable isRead) :
    status.passes isRead = true := by
  rcases lockable with rfl | ⟨rfl, rfl⟩ <;> rfl

theorem Hidden.inRange (trees : manager.Trees) {lock : Interval}
    (hidden : manager.Hidden key tsStart tsEnd lock) :
    manager.InRange key tsStart tsEnd lock := by
  obtain ⟨info, present, node, member, -, rfl, starts, upTo⟩ := hidden
  have laid : Laid info.heap info.root info.nodes := trees key info present
  have ends := (laid.end_le member).1
  refine ⟨?_, upTo, by omega⟩
  rw [timeline_eq present]
  exact List.mem_map_of_mem member

/-- What contains the timestamp below a hidden start ends there. -/
theorem StartHidden.endTs_lt (trees : manager.Trees) (positive : 1 ≤ tsStart)
    (hidden : manager.StartHidden key tsStart tsEnd) {below : Interval}
    (known : manager.covering key (tsStart - 1) = some below) : below.endTs < tsStart := by
  obtain ⟨first, isHidden, starts⟩ := hidden
  obtain ⟨member, starts', ends'⟩ := (covering_eq_some trees).1 known
  have isInterval := (Hidden.inRange trees isHidden).1
  have ends := ((trees.isTimeline key).ordered isInterval).1
  by_contra reaches
  have covers : below.startTs ≤ tsStart ∧ tsStart ≤ below.endTs := ⟨by omega, by omega⟩
  obtain rfl := (trees.isTimeline key).cover_unique member isInterval covers
    ⟨by omega, by omega⟩
  omega

/-- Everything in a range passes if and only if all in sight does and all hidden does. -/
theorem inRange_pass_iff (trees : manager.Trees) :
    (∀ lock, manager.InRange key tsStart tsEnd lock → lock.status.passes isRead = true) ↔
      ¬ manager.RefusedInSight key tsStart tsEnd isRead ∧
        ∀ lock, manager.Hidden key tsStart tsEnd lock → lock.status.passes isRead = true := by
  constructor
  · intro pass
    refine ⟨?_, fun lock hidden => pass lock (Hidden.inRange trees hidden)⟩
    rintro ⟨lock, inRange, -, refuses⟩
    simp [pass lock inRange] at refuses
  · rintro ⟨inSight, hidden⟩ lock inRange
    by_contra refuses
    exact inSight ⟨lock, inRange, fun isHidden => refuses (hidden lock isHidden),
      by simpa using refuses⟩

namespace Searched

variable {manager₁ : AVLTreeLockManager} {info : KeyInfo} {locks examined : List Address}
  (searched : Searched manager manager₁ key tsStart tsEnd isRead info locks examined)

include searched

theorem visits_pass_iff (trees : manager.Trees) (positive : 1 ≤ tsStart)
    (ordered : tsStart ≤ tsEnd) (bound : tsEnd ≤ uintMax) :
    (∀ lock, manager.Visits key tsStart tsEnd lock → lock.status.passes isRead = true) ↔
      ¬ manager.RefusedInSight key tsStart tsEnd isRead ∧
        (manager.StartHidden key tsStart tsEnd → ∀ status,
          manager.statusAt key (tsStart - 1) = some status →
            status.passes isRead = true) := by
  have visits := searched.visits_iff_shown trees positive ordered bound
  constructor
  · intro pass
    constructor
    · rintro ⟨lock, inRange, shown, refuses⟩
      simp [pass lock ((visits lock).2 (.inl ⟨inRange, shown⟩))] at refuses
    · intro hidden status known
      obtain ⟨lock, covering, rfl⟩ := Option.map_eq_some_iff.1 known
      exact pass lock ((visits lock).2 (.inr ⟨hidden, covering⟩))
  · rintro ⟨inSight, below⟩ lock visited
    rcases (visits lock).1 visited with ⟨inRange, shown⟩ | ⟨hidden, covering⟩
    · by_contra refuses
      exact inSight ⟨lock, inRange, shown, by simpa using refuses⟩
    · exact below hidden lock.status (by rw [statusAt, covering, Option.map_some])

theorem visitsWithin_iff (trees : manager.Trees) (positive : 1 ≤ tsStart)
    (ordered : tsStart ≤ tsEnd) (bound : tsEnd ≤ uintMax) :
    manager.VisitsWithin key tsStart tsEnd isRead ↔
      manager.StaysWithin key tsStart tsEnd isRead := by
  have visits := searched.visits_iff_shown trees positive ordered bound
  have passes := searched.visits_pass_iff trees positive ordered bound
  constructor
  · intro within hidden status known lockable
    by_contra inSight
    obtain ⟨lock, covering, rfl⟩ := Option.map_eq_some_iff.1 known
    have pass := passes.2 ⟨inSight, fun _ status' known' => by
      obtain rfl : lock.status = status' := by simpa [known] using known'
      exact passes_of_lockable lockable⟩
    have reaches := within pass lock ((visits lock).2 (.inr ⟨hidden, covering⟩)) lockable
    exact absurd (StartHidden.endTs_lt trees positive hidden covering) (Nat.not_lt.2 reaches)
  · intro within pass lock visited lockable
    rcases (visits lock).1 visited with ⟨inRange, -⟩ | ⟨hidden, covering⟩
    · exact inRange.2.2
    · exact absurd (within hidden lock.status (by rw [statusAt, covering, Option.map_some])
        lockable) (passes.1 pass).1

/-- A hidden interval is not visited. -/
theorem not_visits_of_hidden (trees : manager.Trees) (positive : 1 ≤ tsStart)
    (ordered : tsStart ≤ tsEnd) (bound : tsEnd ≤ uintMax) {lock : Interval}
    (hidden : manager.Hidden key tsStart tsEnd lock) :
    ¬ manager.Visits key tsStart tsEnd lock := by
  rw [searched.visits_iff_shown trees positive ordered bound]
  rintro (⟨-, shown⟩ | ⟨-, covering⟩)
  · exact shown hidden
  · obtain ⟨-, -, -, -, -, -, starts, -⟩ := hidden
    have starts' := ((covering_eq_some trees).1 covering).2.1
    omega

/-- Where the visited intervals do duty for the range, what is hidden makes no difference. -/
theorem hiddenHarmless_of_suffice (trees : manager.Trees) (positive : 1 ≤ tsStart)
    (ordered : tsStart ≤ tsEnd) (bound : tsEnd ≤ uintMax) {tid : Nat}
    (suffice : manager.VisitsSuffice key tid tsStart tsEnd isRead) :
    manager.HiddenHarmless key tid tsStart tsEnd isRead := by
  have passes := searched.visits_pass_iff trees positive ordered bound
  have range := @inRange_pass_iff manager key tsStart tsEnd isRead trees
  have within := searched.visitsWithin_iff trees positive ordered bound
  by_cases inSight : manager.RefusedInSight key tsStart tsEnd isRead
  · exact .inl inSight
  by_cases pass : ∀ lock, manager.Hidden key tsStart tsEnd lock →
      lock.status.passes isRead = true
  · have visited := suffice.verdict.2 (range.2 ⟨inSight, pass⟩)
    refine .inr (.inl ⟨fun lock hidden => served_iff.2 ⟨pass lock hidden, fun lockable =>
      (suffice.complete visited lock (Hidden.inRange trees hidden) lockable).resolve_left
        (searched.not_visits_of_hidden trees positive ordered bound hidden)⟩,
      fun hidden => ?_⟩)
    -- What is below the range passes and must not be locked.
    obtain ⟨below, known⟩ := exists_covering trees key (show tsStart - 1 ≤ uintMax by omega)
    have status : manager.statusAt key (tsStart - 1) = some below.status := by
      rw [statusAt, known, Option.map_some]
    have passesBelow := (passes.1 visited).2 hidden below.status status
    have notLockable : ¬ below.status.Lockable isRead := fun lockable =>
      inSight (within.1 suffice.within hidden below.status status lockable)
    rw [status]
    cases kind : below.status <;> cases isRead <;>
      simp_all [LockStatus.passes, LockStatus.Lockable]
  · obtain ⟨lock, hidden, refuses⟩ : ∃ lock, manager.Hidden key tsStart tsEnd lock ∧
        lock.status.passes isRead = false := by simpa using pass
    have notVisited := mt suffice.verdict.1 fun all => pass (range.1 all).2
    rw [passes] at notVisited
    obtain ⟨startHidden, status, known, refusesBelow⟩ :
        manager.StartHidden key tsStart tsEnd ∧ ∃ status,
          manager.statusAt key (tsStart - 1) = some status ∧
            status.passes isRead = false := by simpa [inSight] using notVisited
    exact .inr (.inr ⟨startHidden, ⟨status, known, refusesBelow⟩, lock, hidden, refuses⟩)

/-- If there is nothing to do in what is hidden, the visited intervals do duty for the range. -/
theorem visitsSuffice_of_served (trees : manager.Trees) (positive : 1 ≤ tsStart)
    (ordered : tsStart ≤ tsEnd) (bound : tsEnd ≤ uintMax) {tid : Nat}
    (served : ∀ lock, manager.Hidden key tsStart tsEnd lock → Served tid isRead lock)
    (below : manager.StartHidden key tsStart tsEnd →
      manager.statusAt key (tsStart - 1) = some .freezeReadLock) :
    manager.VisitsSuffice key tid tsStart tsEnd isRead := by
  have visits := searched.visits_iff_shown trees positive ordered bound
  have passes := searched.visits_pass_iff trees positive ordered bound
  have range := @inRange_pass_iff manager key tsStart tsEnd isRead trees
  have within := searched.visitsWithin_iff trees positive ordered bound
  have isFrozen : manager.StartHidden key tsStart tsEnd → isRead = true ∧
      ∀ status, manager.statusAt key (tsStart - 1) = some status →
        status = .freezeReadLock := by
    intro hidden
    refine ⟨?_, fun status known => by simpa [below hidden, eq_comm] using known⟩
    obtain ⟨lock, isHidden, -⟩ := hidden
    exact (served lock isHidden).1
  have visited : (∀ lock, manager.Visits key tsStart tsEnd lock →
        lock.status.passes isRead = true) ↔
      ¬ manager.RefusedInSight key tsStart tsEnd isRead := by
    rw [passes, and_iff_left]
    intro hidden status known
    obtain ⟨rfl, frozen⟩ := isFrozen hidden
    rw [frozen status known]
    rfl
  refine ⟨?_, fun _ lock inRange lockable => ?_,
    within.2 fun hidden status known lockable => ?_⟩
  · rw [visited, range, and_iff_left fun lock hidden => (served_iff.1 (served lock hidden)).1]
  · by_cases isHidden : manager.Hidden key tsStart tsEnd lock
    · exact .inr ((served_iff.1 (served lock isHidden)).2 lockable)
    · exact .inl ((visits lock).2 (.inl ⟨inRange, isHidden⟩))
  · obtain ⟨rfl, frozen⟩ := isFrozen hidden
    rw [frozen status known] at lockable
    simp [LockStatus.Lockable] at lockable

/-- The visited intervals do duty for the range if what is hidden makes no difference. -/
theorem visitsSuffice_iff (trees : manager.Trees) (positive : 1 ≤ tsStart)
    (ordered : tsStart ≤ tsEnd) (bound : tsEnd ≤ uintMax) (tid : Nat) :
    manager.VisitsSuffice key tid tsStart tsEnd isRead ↔
      manager.HiddenHarmless key tid tsStart tsEnd isRead := by
  have passes := searched.visits_pass_iff trees positive ordered bound
  have range := @inRange_pass_iff manager key tsStart tsEnd isRead trees
  have within := searched.visitsWithin_iff trees positive ordered bound
  refine ⟨searched.hiddenHarmless_of_suffice trees positive ordered bound, ?_⟩
  rintro (inSight | ⟨served, below⟩ | ⟨hidden, ⟨status, known, refusesBelow⟩, lock,
    isHidden, refuses⟩)
  · have notVisited := fun pass => (passes.1 pass).1 inSight
    exact ⟨iff_of_false notVisited fun all => (range.1 all).1 inSight,
      fun pass => absurd pass notVisited, within.2 fun _ _ _ _ => inSight⟩
  · exact searched.visitsSuffice_of_served trees positive ordered bound served below
  · have notVisited : ¬ ∀ lock, manager.Visits key tsStart tsEnd lock →
        lock.status.passes isRead = true := fun pass => by
      simpa [refusesBelow] using (passes.1 pass).2 hidden status known
    refine ⟨iff_of_false notVisited fun all => by
        simpa [refuses] using (range.1 all).2 lock isHidden,
      fun pass => absurd pass notVisited, within.2 fun _ status' known' lockable => ?_⟩
    obtain rfl : status = status' := by simpa [known] using known'
    simp [passes_of_lockable lockable] at refusesBelow

/-- A search that stays within the range locks what is lockable among what it visits. -/
theorem tryLock_within
    (positive : 1 ≤ tsStart) (ordered : tsStart ≤ tsEnd)
    (pass : ∀ node ∈ examined, searchVisit isRead (info.heap.pub node) ≠ none)
    (within : manager.VisitsWithin key tsStart tsEnd isRead) (tid : Nat) :
    ∃ manager' chosen, manager.tryLock key tid tsStart tsEnd isRead = .ok (manager', true) ∧
      TakesLocks manager key tid tsStart tsEnd isRead chosen manager' ∧
        ∀ lock, lock ∈ chosen ↔
          manager.Visits key tsStart tsEnd lock ∧ lock.status.Lockable isRead := by
  obtain ⟨heap, rootPtr, locked, effect⟩ :=
    takesLocks_collected searched.same searched.present searched.trees positive ordered
      (searched.nodup.filter fun node => searchVisit isRead (info.heap.pub node) = some true)
      tid isRead fun node member => by
        obtain ⟨isExamined, lockable⟩ := mem_lockable.1 member
        have probe := searched.sound node isExamined
        obtain ⟨inNodes, starts, -⟩ := searched.bounds node probe
        exact ⟨inNodes, searchVisit_eq_some_true.2 lockable, starts,
          within (searched.all_pass_iff.2 pass) _
            (searched.visits_iff.2 ⟨node, probe, rfl⟩) lockable⟩
  refine ⟨_, _, searched.tryLock_of_pass pass locked, effect, fun lock => ?_⟩
  rw [List.mem_map, searched.visits_iff]
  constructor
  · rintro ⟨node, member, rfl⟩
    obtain ⟨isExamined, lockable⟩ := mem_lockable.1 member
    exact ⟨⟨node, searched.sound node isExamined, rfl⟩, lockable⟩
  · rintro ⟨⟨node, probe, rfl⟩, lockable⟩
    exact ⟨node, mem_lockable.2 ⟨searched.complete pass node probe, lockable⟩, rfl⟩

end Searched

/-! ## A search that stays within the range -/

theorem take_of_lockable {lock : Interval} (lockable : lock.status.Lockable isRead)
    (tid : Nat) :
    take tid isRead (lock.status, lock.tids) = (lockMode isRead, insert tid lock.tids) := by
  rcases lockable with free | ⟨read, rfl⟩
  · rw [free]
    rfl
  · rw [read]
    rfl

/-- What a lock makes no difference to. -/
theorem take_eq_self_iff {lock : Interval} (passes : lock.status.passes isRead = true)
    (tid : Nat) :
    take tid isRead (lock.status, lock.tids) = (lock.status, lock.tids) ↔
      (lock.status.Lockable isRead → lock.status = .readLock ∧ tid ∈ lock.tids) := by
  cases status : lock.status <;> cases isRead <;>
    simp_all [take, lockMode, LockStatus.passes, LockStatus.Lockable]

theorem TakesLocks.viewAt {manager' : AVLTreeLockManager} {chosen : List Interval}
    (trees : manager.Trees)
    (locked : TakesLocks manager key tid tsStart tsEnd isRead chosen manager')
    {ts : Nat} {lock : Interval} (known : manager.covering key ts = some lock) :
    manager'.viewAt key ts =
      if lock ∈ chosen ∧ tsStart ≤ ts ∧ ts ≤ tsEnd then
        some (take tid isRead (lock.status, lock.tids))
      else some (lock.status, lock.tids) := by
  obtain ⟨member, starts, ends⟩ := (covering_eq_some trees).1 known
  -- It is enough to name the piece that contains the timestamp.
  have of_piece : ∀ part, part.Covers ts →
      part ∈ (if lock ∈ chosen then lockPieces tid tsStart tsEnd isRead lock else [lock]) →
      manager'.viewAt key ts = some (part.status, part.tids) := by
    intro part covers isPiece
    have known' : manager'.covering key ts = some part := by
      refine (covering_eq_some locked.trees).2 ⟨?_, covers⟩
      rw [locked.timeline, if_pos rfl]
      exact List.mem_flatMap.2 ⟨lock, member, isPiece⟩
    rw [AVLTreeLockManager.viewAt, known']
    rfl
  by_cases isChosen : lock ∈ chosen
  · rw [if_pos isChosen] at of_piece
    by_cases before : ts < tsStart
    · rw [if_neg (by omega), of_piece { lock with endTs := tsStart - 1 }
        ⟨starts, by simp only; omega⟩]
      simp [lockPieces, lowPiece, show lock.startTs < tsStart by omega]
    by_cases after : tsEnd < ts
    · rw [if_neg (by omega), of_piece { lock with startTs := tsEnd + 1 }
        ⟨by simp only; omega, ends⟩]
      simp [lockPieces, highPiece, show tsEnd < lock.endTs by omega]
    · have lockable := searchVisit_eq_some_true.1 (locked.collected lock isChosen).2.1
      rw [if_pos ⟨isChosen, by omega, by omega⟩, take_of_lockable lockable,
        of_piece (lockPiece tid tsStart tsEnd isRead lock)
          ⟨by simp only [lockPiece]; omega, by simp only [lockPiece]; omega⟩
          (by simp [lockPieces])]
      rfl
  · rw [if_neg fun all => isChosen all.1, of_piece lock ⟨starts, ends⟩ (by simp [isChosen])]

/-- Every timestamp of a range passes if and only if every interval of it does. -/
theorem range_passes_iff (trees : manager.Trees) (ordered : tsStart ≤ tsEnd)
    (bound : tsEnd ≤ uintMax) :
    (∀ ts, tsStart ≤ ts → ts ≤ tsEnd → ∃ lock, manager.covering key ts = some lock ∧
        lock.status.passes isRead = true) ↔
      ∀ lock, manager.InRange key tsStart tsEnd lock → lock.status.passes isRead = true := by
  constructor
  · rintro pass lock ⟨member, starts, ends⟩
    have nonempty := ((trees.isTimeline key).ordered member).1
    obtain ⟨other, known, passes⟩ := pass (max lock.startTs tsStart) (by omega) (by omega)
    have here : manager.covering key (max lock.startTs tsStart) = some lock :=
      (covering_eq_some trees).2 ⟨member, by omega, by omega⟩
    obtain rfl : lock = other := by simpa [here] using known
    exact passes
  · intro pass ts low high
    obtain ⟨lock, known⟩ := exists_covering trees key (show ts ≤ uintMax by omega)
    obtain ⟨member, starts, ends⟩ := (covering_eq_some trees).1 known
    exact ⟨lock, known, pass lock ⟨member, by omega, by omega⟩⟩

/-- The timestamps change as they should if everything in the range is visited. -/
theorem TakesLocks.viewAt_iff {manager' : AVLTreeLockManager} {chosen : List Interval}
    (trees : manager.Trees) (ordered : tsStart ≤ tsEnd)
    (locked : TakesLocks manager key tid tsStart tsEnd isRead chosen manager')
    (pass : ∀ lock, manager.InRange key tsStart tsEnd lock →
      lock.status.passes isRead = true) :
    (∀ other ts, manager'.viewAt other ts =
        if other = key ∧ tsStart ≤ ts ∧ ts ≤ tsEnd then
          (manager.viewAt key ts).map (take tid isRead)
        else manager.viewAt other ts) ↔
      ∀ lock, manager.InRange key tsStart tsEnd lock → lock.status.Lockable isRead →
        lock ∈ chosen ∨ lock.status = .readLock ∧ tid ∈ lock.tids := by
  constructor
  · rintro view lock ⟨member, starts, ends⟩ lockable
    have nonempty := ((trees.isTimeline key).ordered member).1
    have here : manager.covering key (max lock.startTs tsStart) = some lock :=
      (covering_eq_some trees).2 ⟨member, by omega, by omega⟩
    by_contra neither
    obtain ⟨notChosen, notHeld⟩ := not_or.1 neither
    have viewed := view key (max lock.startTs tsStart)
    rw [locked.viewAt trees here, if_neg fun all => notChosen all.1,
      if_pos ⟨rfl, by omega, by omega⟩, AVLTreeLockManager.viewAt, here, Option.map_some,
      Option.map_some, Option.some.injEq] at viewed
    exact notHeld ((take_eq_self_iff (pass lock ⟨member, starts, ends⟩) tid).1 viewed.symm
      lockable)
  · intro complete other ts
    by_cases different : other ≠ key
    · rw [if_neg fun all => different all.1]
      exact viewAt_of_timeline (by rw [locked.timeline, if_neg different])
    obtain rfl : other = key := not_not.1 different
    by_cases beyond : uintMax < ts
    · simp only [AVLTreeLockManager.viewAt, covering_eq_none trees beyond,
        covering_eq_none locked.trees beyond, Option.map_none, ite_self]
    obtain ⟨lock, known⟩ := exists_covering trees other (Nat.not_lt.1 beyond)
    obtain ⟨member, starts, ends⟩ := (covering_eq_some trees).1 known
    rw [locked.viewAt trees known, AVLTreeLockManager.viewAt, known, Option.map_some,
      Option.map_some]
    by_cases inside : tsStart ≤ ts ∧ ts ≤ tsEnd
    · have inRange : manager.InRange other tsStart tsEnd lock :=
        ⟨member, by omega, by omega⟩
      by_cases isChosen : lock ∈ chosen
      · rw [if_pos ⟨isChosen, inside⟩, if_pos ⟨rfl, inside⟩]
      · rw [if_neg fun all => isChosen all.1, if_pos ⟨rfl, inside⟩]
        exact congrArg some ((take_eq_self_iff (pass lock inRange) tid).2 fun lockable =>
          (complete lock inRange lockable).resolve_left isChosen).symm
    · rw [if_neg fun all => inside all.2, if_neg fun all => inside all.2]

/-! ## A search that leaves the range -/

theorem lockNodes_append {heap : NodeHeap} {rootPtr : Address} {first second : List Address} :
    lockNodes tid tsStart tsEnd isRead (first ++ second) heap rootPtr = (do
      let (heap, rootPtr) ← lockNodes tid tsStart tsEnd isRead first heap rootPtr
      lockNodes tid tsStart tsEnd isRead second heap rootPtr) := by
  induction first generalizing heap rootPtr with
  | nil => rfl
  | cons node first ih =>
      simp only [List.cons_append, lockNodes, ih]
      cases lockNode heap rootPtr tid tsStart tsEnd isRead node <;> rfl

/-- A node that ends below the range is given the range's start all the same. -/
theorem lockNode_below {heap : NodeHeap} {rootPtr node : Address}
    {below above : List Address}
    (laid : Laid heap rootPtr (below ++ node :: above))
    (ends : (heap.pub node).endTs < tsStart) (ordered : tsStart ≤ tsEnd)
    (tid : Nat) (isRead : Bool) :
    ∃ heap' rootPtr' tree,
      lockNode heap rootPtr tid tsStart tsEnd isRead node = .ok (heap', rootPtr') ∧
        Stores heap' rootPtr' tree ∧ node ∈ inorder tree ∧
        (heap'.pub node).endTs < (heap'.pub node).startTs := by
  have nonempty := laid.ordered.1
  let cut := (heap.allocate { heap.pub node with endTs := uintPred tsStart }).1.modifyPub node
    ({ · with startTs := tsStart })
  obtain ⟨pubNode, pubNew, pubOther⟩ := laid.pub_of_cut (show cut = _ from rfl)
  obtain ⟨lowPart, -, highPart⟩ := laid.tiles.around
  obtain ⟨links, rootPtr', tree, inserted, stored, order⟩ :=
    laid.insert_beside cut below (node :: above) rfl rfl (.inr ⟨rfl, rfl⟩)
      (by
        intro address member
        have := lowPart.bounds member
        rw [pubOther address (by simp [member]), pubNew]
        simp only
        omega)
      (by
        intro address member
        rw [pubNew]
        rcases List.mem_cons.1 member with rfl | high
        · rw [pubNode]
          simp only
          omega
        · have := highPart.bounds high
          rw [pubOther address (by simp [high])]
          simp only
          omega)
  have before : (heap.pub node).startTs < tsStart := by omega
  have notAfter : ¬ tsEnd < (cut.pub node).endTs := by
    rw [pubNode]
    simp only
    omega
  have lowCut : cutBelow heap rootPtr tsStart node =
      .ok ({ cut with links := links }, rootPtr') := by
    rw [cutBelow, if_pos before]
    exact inserted
  have highCut : cutAbove { cut with links := links } rootPtr' tsEnd node =
      .ok ({ cut with links := links }, rootPtr') := if_neg notAfter
  refine ⟨({ cut with links := links } : NodeHeap).modifyPub node fun lock =>
      { lock with
        status := if isRead then .readLock else .writeLock
        tids := insert tid lock.tids }, rootPtr', tree, ?_,
    ⟨stored.sound, stored.isRoot, stored.balanced, stored.nodup, stored.allocated⟩,
    by simp [order], ?_⟩
  · simp only [lockNode, lowCut, bind, Except.bind, highCut]
    rfl
  · simp only [NodeHeap.modifyPub, Function.update_self, pubNode]
    omega

/-- A stored tree is what a walk from its root finds. -/
theorem Stores.walk_eq {heap : NodeHeap} {rootPtr : Address} {tree : BinaryTree Address}
    (stored : Stores heap rootPtr tree) :
    walk heap.fuel heap.links (some rootPtr) = inorder tree := by
  have height := height_le_length_inorder tree
  have short := length_le_of_nodup_of_lt stored.nodup stored.allocated
  rw [← stored.isRoot]
  exact Lock.walk_eq stored.sound (by unfold NodeHeap.fuel; omega)

/-- A search that leaves the range and is not refused leaves an empty interval behind. -/
theorem Searched.tryLock_below {manager₁ : AVLTreeLockManager} {info : KeyInfo}
    {locks examined : List Address}
    (searched : Searched manager manager₁ key tsStart tsEnd isRead info locks examined)
    (positive : 1 ≤ tsStart) (ordered : tsStart ≤ tsEnd)
    (pass : ∀ node ∈ examined, searchVisit isRead (info.heap.pub node) ≠ none)
    (leaves : ¬ manager.VisitsWithin key tsStart tsEnd isRead) (tid : Nat) :
    ∃ manager', manager.tryLock key tid tsStart tsEnd isRead = .ok (manager', true) ∧
      ∃ lock ∈ manager'.timeline key, lock.endTs < lock.startTs := by
  obtain ⟨lock, visited, lockable, ends⟩ : ∃ lock, manager.Visits key tsStart tsEnd lock ∧
      lock.status.Lockable isRead ∧ lock.endTs < tsStart := by
    by_contra none
    refine leaves fun _ lock visited lockable => ?_
    by_contra short
    exact none ⟨lock, visited, lockable, Nat.not_le.1 short⟩
  obtain ⟨node, probe, rfl⟩ := searched.visits_iff.1 visited
  obtain ⟨inNodes, starts, where'⟩ := searched.bounds node probe
  have covers := where'.resolve_left (Nat.not_le.2 ends)
  obtain ⟨first, rest, split⟩ := List.append_of_mem (searched.complete pass node probe)
  -- The search cannot have gone on from here.
  obtain rfl : rest = [] := by
    have examines := searched.examines
    rw [split] at examines
    exact examines.last_of_low (by have := covers.1; omega)
  have nodup := searched.nodup
  rw [split, List.nodup_append] at nodup
  let lockables := first.filter fun node => searchVisit isRead (info.heap.pub node) = some true
  have pending : (examined.filter fun node =>
      searchVisit isRead (info.heap.pub node) = some true) = lockables ++ [node] := by
    simp [split, lockables, searchVisit_eq_some_true.2 lockable]
  have fresh : node ∉ lockables := fun member =>
    nodup.2.2 node (List.mem_filter.1 member).1 node (by simp) rfl
  obtain ⟨heap₁, rootPtr₁, nodes₁, locked₁, laid₁, -, untouched⟩ :=
    lockNodes_eq tid isRead searched.laid positive ordered
      (nodup.1.filter fun node => searchVisit isRead (info.heap.pub node) = some true)
      fun other member => by
        have inFirst := (List.mem_filter.1 member).1
        obtain ⟨inNodes', starts', where''⟩ :=
          searched.bounds other (searched.sound other (by simp [split, inFirst]))
        refine ⟨inNodes', starts', where''.resolve_right fun covers' => fresh ?_⟩
        rwa [← searched.laid.tiles.cover_unique (tsStart - 1) inNodes' inNodes covers' covers]
  obtain ⟨inNodes₁, same⟩ := untouched node inNodes fresh
  obtain ⟨below, above, rfl⟩ := List.append_of_mem inNodes₁
  obtain ⟨heap, rootPtr, tree, locked, stored, member, empty⟩ :=
    lockNode_below laid₁ (same ▸ ends) ordered tid isRead
  have lockedAll : lockNodes tid tsStart tsEnd isRead
      (examined.filter fun node => searchVisit isRead (info.heap.pub node) = some true)
      info.heap info.root = .ok (heap, rootPtr) := by
    rw [pending, lockNodes_append]
    simp only [lockables, locked₁, bind, Except.bind, lockNodes, locked]
  refine ⟨_, searched.tryLock_of_pass pass lockedAll, heap.pub node, ?_, empty⟩
  rw [timeline_setKeyInfo, if_pos rfl, KeyInfo.timeline, KeyInfo.nodes]
  exact List.mem_map_of_mem (stored.walk_eq ▸ member)

/-! ## The operation -/

/-- The effect in terms of what is visited. -/
theorem Searched.locksRange_iff_visitsSuffice {manager₁ : AVLTreeLockManager} {info : KeyInfo}
    {locks examined : List Address}
    (searched : Searched manager manager₁ key tsStart tsEnd isRead info locks examined)
    (trees : manager.Trees)
    (positive : 1 ≤ tsStart) (ordered : tsStart ≤ tsEnd) (bound : tsEnd ≤ uintMax)
    (tid : Nat) :
    ∃ manager' res, manager.tryLock key tid tsStart tsEnd isRead = .ok (manager', res) ∧
      (LocksRange manager key tid tsStart tsEnd isRead res manager' ↔
        manager.VisitsSuffice key tid tsStart tsEnd isRead) ∧
      (manager.VisitsWithin key tsStart tsEnd isRead →
        manager'.Trees ∧ (manager.WellFormed → manager'.WellFormed)) := by
  have range := @range_passes_iff manager key tsStart tsEnd isRead trees ordered bound
  have visits := searched.all_pass_iff
  by_cases pass : ∀ node ∈ examined, searchVisit isRead (info.heap.pub node) ≠ none
  · by_cases within : manager.VisitsWithin key tsStart tsEnd isRead
    · obtain ⟨manager', chosen, returned, locked, isChosen⟩ :=
        searched.tryLock_within positive ordered pass within tid
      refine ⟨manager', true, returned, ⟨fun locks => ?_, fun suffices' => ?_⟩,
        fun _ => ⟨locked.trees, fun wellFormed =>
          (locked.locked wellFormed positive bound).wellFormed⟩⟩
      · have free := range.1 (locks.result.1 rfl)
        refine ⟨iff_of_true (visits.2 pass) free, fun _ lock inRange lockable => ?_, within⟩
        exact ((locked.viewAt_iff trees ordered free).1 (locks.viewAt rfl) lock inRange
          lockable).imp_left fun member => ((isChosen lock).1 member).1
      · have free := suffices'.verdict.1 (visits.2 pass)
        refine ⟨iff_of_true rfl (range.2 free), fun _ => ?_,
          fun _ => locked.trees.isTimeline key, fun refused => nomatch refused⟩
        refine (locked.viewAt_iff trees ordered free).2 fun lock inRange lockable => ?_
        exact (suffices'.complete (visits.2 pass) lock inRange lockable).imp_left
          fun visited => (isChosen lock).2 ⟨visited, lockable⟩
    · obtain ⟨manager', returned, lock, member, inverted⟩ :=
        searched.tryLock_below positive ordered pass within tid
      refine ⟨manager', true, returned, iff_of_false (fun locks => ?_)
        fun suffices' => within suffices'.within, fun within' => absurd within' within⟩
      exact absurd ((locks.tiles rfl).ordered member).1 (Nat.not_le.2 inverted)
  · refine ⟨manager₁, false, searched.tryLock_of_refusal pass tid, ?_,
      fun _ => ⟨searched.trees, fun wellFormed =>
        searched.same.wellFormed wellFormed searched.trees⟩⟩
    have refuses := mt visits.1 pass
    constructor
    · intro locks
      exact ⟨iff_of_false refuses fun free => absurd (locks.result.2 (range.2 free)) (by simp),
        fun free => absurd free refuses, fun free => absurd free refuses⟩
    · intro suffices'
      exact ⟨iff_of_false (by simp) fun free =>
          refuses (suffices'.verdict.2 (range.1 free)),
        (nomatch ·), (nomatch ·), fun _ => searched.same⟩

theorem Searched.locksRange_iff {manager₁ : AVLTreeLockManager} {info : KeyInfo}
    {locks examined : List Address}
    (searched : Searched manager manager₁ key tsStart tsEnd isRead info locks examined)
    (trees : manager.Trees)
    (positive : 1 ≤ tsStart) (ordered : tsStart ≤ tsEnd) (bound : tsEnd ≤ uintMax)
    (tid : Nat) :
    ∃ manager' res, manager.tryLock key tid tsStart tsEnd isRead = .ok (manager', res) ∧
      (LocksRange manager key tid tsStart tsEnd isRead res manager' ↔
        manager.HiddenHarmless key tid tsStart tsEnd isRead) ∧
      (manager.StaysWithin key tsStart tsEnd isRead →
        manager'.Trees ∧ (manager.WellFormed → manager'.WellFormed)) := by
  rw [← searched.visitsSuffice_iff trees positive ordered bound,
    ← searched.visitsWithin_iff trees positive ordered bound]
  exact searched.locksRange_iff_visitsSuffice trees positive ordered bound tid

/-- The call takes no lock below its range. -/
def ManagerCall.StaysWithin (manager : AVLTreeLockManager) : ManagerCall → Prop
  | .tryLock key _ tsStart tsEnd isRead => manager.StaysWithin key tsStart tsEnd isRead
  | .tryBackwardLock .. | .freeze _ | .unlock _ => True

theorem apply_wellFormed {manager' : AVLTreeLockManager} {call : ManagerCall}
    (wellFormed : manager.WellFormed) (timely : call.Timely)
    (within : call.StaysWithin manager) (applied : call.apply manager = .ok manager') :
    manager'.WellFormed := by
  cases call with
  | tryBackwardLock key tid tsEnd isRead event tsStart =>
      obtain ⟨last, stopTs, stop, returned, effect⟩ :=
        tryBackwardLock_eq wellFormed timely.2 key tid isRead event tsStart
      simp only [ManagerCall.apply, returned, bind, Except.bind] at applied
      cases applied
      exact effect.wellFormed
  | tryLock key tid tsStart tsEnd isRead =>
      obtain ⟨positive, ordered, bound⟩ := timely
      obtain ⟨manager₁, info, locks, examined, searched⟩ :=
        exists_searched wellFormed.trees key positive ordered (Nat.le_of_lt bound) isRead
      obtain ⟨last, res, returned, -, preserved⟩ :=
        searched.locksRange_iff wellFormed.trees positive ordered (Nat.le_of_lt bound) tid
      simp only [ManagerCall.apply, returned, bind, Except.bind] at applied
      cases applied
      exact (preserved within).2 wellFormed
  | freeze tid =>
      obtain ⟨last, events, returned, effect⟩ := freeze_eq wellFormed tid
      simp only [ManagerCall.apply, returned, bind, Except.bind] at applied
      cases applied
      exact effect.wellFormed
  | unlock tid =>
      obtain ⟨last, events, returned, effect⟩ := unlock_eq wellFormed tid
      simp only [ManagerCall.apply, returned, bind, Except.bind] at applied
      cases applied
      exact effect.wellFormed

/--
In every state that calls lead to which lock nothing below their ranges,
`tryLock` has its documented effect if and only if what the tree of the key
hides from its search makes no difference to the call.
-/
theorem tryLock_exact_iff
    (reached : Reach ManagerCall.apply
      (fun manager call => call.Timely ∧ call.StaysWithin manager) empty manager)
    (positive : 1 ≤ tsStart) (ordered : tsStart ≤ tsEnd) (bound : tsEnd < uintMax)
    (key tid : Nat) (isRead : Bool) :
    ∃ manager' res, manager.tryLock key tid tsStart tsEnd isRead = .ok (manager', res) ∧
      (LocksRange manager key tid tsStart tsEnd isRead res manager' ↔
        manager.HiddenHarmless key tid tsStart tsEnd isRead) := by
  have wellFormed : manager.WellFormed := reached.invariant wellFormed_empty
    fun _ _ _ wellFormed permitted applied =>
      apply_wellFormed wellFormed permitted.1 permitted.2 applied
  obtain ⟨manager₁, info, locks, examined, searched⟩ :=
    exists_searched wellFormed.trees key positive ordered (Nat.le_of_lt bound) isRead
  obtain ⟨manager', res, returned, iff, -⟩ :=
    searched.locksRange_iff wellFormed.trees positive ordered (Nat.le_of_lt bound) tid
  exact ⟨manager', res, returned, iff⟩

/-- A write of `[12, 15]` above a frozen read of `[1, 9]`. -/
theorem tryLock_exact_iff_of_frozen_read :
    ∃ manager, manager.statusAt 7 9 = some .freezeReadLock ∧
      ∃ manager' res, manager.tryLock 7 2 12 15 false = .ok (manager', res) ∧
        (LocksRange manager 7 2 12 15 false res manager' ↔
          manager.HiddenHarmless 7 2 12 15 false) := by
  obtain ⟨manager, reached, holds⟩ := exists_reach_of_ends
    (fun manager call => ManagerCall.Timely call ∧ call.StaysWithin manager)
    [.tryBackwardLock 7 1 9 true 0 0, .freeze 1]
    (fun manager => manager.statusAt 7 9 = some .freezeReadLock)
    (fun _ call member => by
      simp only [List.mem_cons, List.not_mem_nil, or_false] at member
      rcases member with rfl | rfl <;> exact ⟨by decide, trivial⟩)
    (show ends ManagerCall.apply _ empty _ = true by decide)
  exact ⟨manager, of_decide_eq_true holds,
    tryLock_exact_iff reached (by decide) (by decide) (by decide) 7 2 false⟩

/--
With write locks on `5` and `20`, the search for `[3, 15]` goes from `[6, 19]`
straight to `[1, 4]`, and the lock is given although `5` is taken.
-/
theorem not_locksRange_of_two_writes :
    ∃ manager, Reach ManagerCall.apply (fun _ call => call.Timely) empty manager ∧
      ∃ manager', manager.tryLock 7 3 3 15 false = .ok (manager', true) ∧
        ¬ LocksRange manager 7 3 3 15 false true manager' := by
  obtain ⟨manager, reached, holds⟩ := exists_reach_of_ends
    (fun (_ : AVLTreeLockManager) call => ManagerCall.Timely call)
    [.tryLock 7 1 5 5 false, .tryLock 7 2 20 20 false]
    (fun manager => manager.statusAt 7 5 = some .writeLock ∧
      (manager.tryLock 7 3 3 15 false).map (·.2) = .ok true)
    (fun _ call member => by
      simp only [List.mem_cons, List.not_mem_nil, or_false] at member
      rcases member with rfl | rfl <;> decide)
    (show ends ManagerCall.apply _ empty _ = true by decide)
  obtain ⟨status, returned⟩ := of_decide_eq_true holds
  cases result : manager.tryLock 7 3 3 15 false with
  | error fault => simp [result, Except.map] at returned
  | ok outcome =>
      obtain ⟨manager', res⟩ := outcome
      obtain rfl : res = true := by simpa [result, Except.map] using returned
      refine ⟨manager, reached, manager', result, fun locks => ?_⟩
      obtain ⟨lock, known, passes⟩ := locks.result.1 rfl 5 (by decide) (by decide)
      rw [statusAt, known, Option.map_some, Option.some.injEq] at status
      simp [status, LockStatus.passes] at passes

end Mvtx.Lock
