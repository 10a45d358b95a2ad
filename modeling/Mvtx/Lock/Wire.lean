import Mvtx.Lock.RangeLock

/-!
# Calls with any 64-bit timestamps

What comes off the wire is not checked: a read may start at the timestamp `0`,
so that its search begins at `2^64 - 1`, and what it records may start at `0`.
Such a record cannot be walked any more, but the trees stay laid out in every
state that is `Sound`.
-/

namespace Mvtx.Lock

open Lib Lib.AvlTree Lib.LinkedTree AVLTreeLockNode AVLTreeLockManager

variable {manager manager' : AVLTreeLockManager} {key tid tsStart tsEnd : Nat}
  {isRead : Bool}

/-- Every tree is laid out, and every recorded range ends at a 64-bit timestamp. -/
structure AVLTreeLockManager.Sound (manager : AVLTreeLockManager) : Prop where
  trees : manager.Trees
  records : ∀ tid key low high,
    manager.record tid key = some (low, high) → high ≤ uintMax

/-! ## Locking from the timestamp zero on -/

/-- Where nothing starts at zero, locking from zero on is locking from one on. -/
theorem lockNodes_zero {heap : NodeHeap} {rootPtr : Address} {nodes pendLocks : List Address}
    (laid : Laid heap rootPtr nodes) (ordered : 1 ≤ tsEnd) (nodup : pendLocks.Nodup)
    (meets : ∀ node ∈ pendLocks, node ∈ nodes ∧
      (heap.pub node).startTs ≤ tsEnd ∧ 1 ≤ (heap.pub node).startTs)
    (tid : Nat) (isRead : Bool) :
    lockNodes tid 0 tsEnd isRead pendLocks heap rootPtr =
      lockNodes tid 1 tsEnd isRead pendLocks heap rootPtr := by
  induction pendLocks generalizing heap rootPtr nodes with
  | nil => rfl
  | cons first pendLocks ih =>
      obtain ⟨fresh, nodup⟩ := List.nodup_cons.1 nodup
      obtain ⟨member, starts, positive⟩ := meets first (by simp)
      obtain ⟨below, above, rfl⟩ := List.append_of_mem member
      have nonempty := laid.ordered.1
      obtain ⟨heap₁, rootPtr₁, low, high, locked, laid₁, -, others⟩ :=
        lockNode_eq tid isRead laid (Nat.le_refl 1) ordered starts (by omega)
      have same : lockNode heap rootPtr tid 0 tsEnd isRead first =
          lockNode heap rootPtr tid 1 tsEnd isRead first := by
        rw [lockNode, lockNode, cutBelow, cutBelow,
          if_neg (show ¬ (heap.pub first).startTs < 0 by omega),
          if_neg (show ¬ (heap.pub first).startTs < 1 by omega)]
      rw [lockNodes, lockNodes, same, locked]
      refine ih laid₁ nodup fun node later => ?_
      obtain ⟨inNodes, starts', positive'⟩ := meets node (by simp [later])
      have different : node ≠ first := by
        rintro rfl
        exact fresh later
      have around : node ∈ below ++ above := by
        simp only [List.mem_append, List.mem_cons] at inNodes ⊢
        tauto
      rw [others node around]
      refine ⟨?_, starts', positive'⟩
      simp only [List.mem_append] at around ⊢
      tauto

/-- A search from zero on that returns collects nodes of the stack it begins with. -/
theorem collected_of_zero {heap : NodeHeap} {rootPtr : Address}
    {nodes locks pendLocks : List Address} {fuel : Nat}
    (laid : Laid heap rootPtr nodes) (nodup : locks.Nodup)
    (within : ∀ node ∈ locks, node ∈ nodes)
    (looped : searchLoop heap 0 isRead fuel locks [] = .ok (some pendLocks)) :
    pendLocks.Nodup ∧ ∀ node ∈ pendLocks, node ∈ locks ∧
      searchVisit isRead (heap.pub node) = some true ∧ 1 ≤ (heap.pub node).startTs := by
  have origin : ∀ node ∈ nodes, (heap.pub node).startTs = 0 →
      searchVisit isRead (heap.pub node) = none := by
    intro node member zero
    rw [laid.eq_origin member zero]
    rfl
  obtain ⟨tree, stored, rfl⟩ := laid.stored
  obtain ⟨examined, examines, gathers⟩ := examines_of_searchLoop looped
  have inTree := examines.mem (fun node member child => stored.sound.closed member) within
  obtain ⟨examined', examines', distinct, source⟩ :=
    exists_examines_of_halts (halts_of_examines examines) nodup
  obtain rfl := examines.unique examines'
  unfold gathered at gathers
  split at gathers
  · next pass =>
      obtain rfl : pendLocks = _ := by simpa using gathers
      refine ⟨distinct.filter _, fun node member => ?_⟩
      obtain ⟨isExamined, visit⟩ := List.mem_filter.1 member
      have visit : searchVisit isRead (heap.pub node) = some true := by simpa using visit
      refine ⟨(source node isExamined).resolve_right ?_, visit, ?_⟩
      · rintro (refuses | zero)
        · exact pass node isExamined refuses
        · exact pass node isExamined (origin node (inTree node isExamined) zero)
      · by_contra zero
        simp [origin node (inTree node isExamined) (by omega)] at visit
  · exact absurd gathers (by simp)

/-- A `tryLock` from zero on, if it returns, keeps the trees laid out. -/
theorem tryLock_zero {res : Bool} (trees : manager.Trees) (bound : tsEnd ≤ uintMax)
    (returned : manager.tryLock key tid 0 tsEnd isRead = .ok (manager', res)) :
    manager'.Trees ∧ (SameView manager manager' ∨
      ∀ other otherKey, manager'.record other otherKey =
        if other = tid ∧ otherKey = key then
          some (widen (manager.record tid key) 0 tsEnd)
        else manager.record other otherKey) := by
  obtain ⟨manager₁, info, created, present, trees₁, same, -⟩ :=
    createKeyInfo_trees trees key
  have laid : Laid info.heap info.root info.nodes := trees₁ key info present
  obtain ⟨before, hit, above, order, covers⟩ := laid.exists_cover bound
  have laid' := laid
  rw [order] at laid'
  obtain ⟨locks, found, pending⟩ := laid'.find_root covers
  have inNodes : ∀ node ∈ locks, node ∈ info.nodes := by
    intro node member
    have := pending.mem member
    rw [order]
    simp only [List.mem_append, List.mem_cons, List.not_mem_nil, or_false] at this ⊢
    tauto
  have starts : ∀ node ∈ locks, (info.heap.pub node).startTs ≤ tsEnd := by
    intro node member
    rcases List.mem_append.1 (pending.mem member) with isBefore | isHit
    · exact ((laid'.around covers).1 node isBefore).1
    · exact List.mem_singleton.1 isHit ▸ covers.1
  have nodup : (before ++ [hit]).Nodup := by
    have whole := laid'.nodup
    rw [show before ++ hit :: above = before ++ [hit] ++ above by simp] at whole
    exact (List.nodup_append.1 whole).1
  unfold tryLock at returned
  rw [created] at returned
  simp only [bind, Except.bind, present, deref, found] at returned
  cases looped : searchLoop info.heap 0 isRead info.heap.fuel locks [] with
  | error fault => simp [looped] at returned
  | ok result =>
      cases result with
      | none =>
          simp only [looped, pure, Except.pure, Except.ok.injEq, Prod.mk.injEq] at returned
          obtain ⟨rfl, -⟩ := returned
          exact ⟨trees₁, .inl same⟩
      | some pendLocks =>
          obtain ⟨distinct, collected⟩ :=
            collected_of_zero laid (pending.nodup nodup) inNodes looped
          have meets : ∀ node ∈ pendLocks, node ∈ info.nodes ∧
              searchVisit isRead (info.heap.pub node) = some true ∧
              (info.heap.pub node).startTs ≤ tsEnd ∧ 1 ≤ (info.heap.pub node).startTs :=
            fun node member => by
              obtain ⟨inLocks, visit, positive⟩ := collected node member
              exact ⟨inNodes node inLocks, visit, starts node inLocks, positive⟩
          by_cases ordered : 1 ≤ tsEnd
          · obtain ⟨heap, rootPtr, locked, takes⟩ :=
              takesLocks_collected same present trees₁ (Nat.le_refl 1) ordered distinct tid
                isRead fun node member => by
                  obtain ⟨inTree, visit, upTo, positive⟩ := meets node member
                  exact ⟨inTree, visit, upTo, positive.trans (laid.end_le inTree).1⟩
            rw [← lockNodes_zero laid ordered distinct fun node member => by
              obtain ⟨inTree, -, rest⟩ := meets node member
              exact ⟨inTree, rest⟩] at locked
            simp only [looped, locked, pure, Except.pure, Except.ok.injEq,
              Prod.mk.injEq] at returned
            obtain ⟨rfl, -⟩ := returned
            refine ⟨takes.trees, .inr fun other otherKey => ?_⟩
            rw [record_setKeyInfo, record_addTransactionLock, same.record, same.record]
          · obtain rfl : pendLocks = [] := by
              refine List.eq_nil_iff_forall_not_mem.2 fun node member => ?_
              obtain ⟨-, -, upTo, positive⟩ := meets node member
              omega
            simp only [looped, lockNodes, pure, Except.pure, Except.ok.injEq,
              Prod.mk.injEq] at returned
            obtain ⟨rfl, -⟩ := returned
            have trees₂ : (manager₁.addTransactionLock tid key 0 tsEnd).Trees := trees₁
            refine ⟨trees₂.setKeyInfo (trees₁ key info present), .inr fun other otherKey => ?_⟩
            rw [record_setKeyInfo, record_addTransactionLock, same.record, same.record]

/-! ## What a call preserves -/

namespace AVLTreeLockManager.Sound

theorem empty : AVLTreeLockManager.empty.Sound where
  trees := wellFormed_empty.trees
  records := by simp [AVLTreeLockManager.empty, record]

theorem sameView (sound : manager.Sound) (trees : manager'.Trees)
    (same : SameView manager manager') : manager'.Sound where
  trees := trees
  records := fun other otherKey low high recorded =>
    sound.records other otherKey low high (same.record other otherKey ▸ recorded)

/-- A lock operation that records its range keeps the manager sound. -/
theorem gain (sound : manager.Sound) (trees : manager'.Trees) (bound : tsEnd ≤ uintMax)
    (record : ∀ other otherKey, manager'.record other otherKey =
      if other = tid ∧ otherKey = key then
        some (widen (manager.record tid key) tsStart tsEnd)
      else manager.record other otherKey) : manager'.Sound where
  trees := trees
  records := by
    intro other otherKey low high recorded
    rw [record] at recorded
    split at recorded
    · cases old : manager.record tid key with
      | none =>
          simp only [old, widen, Option.some.injEq, Prod.mk.injEq] at recorded
          omega
      | some range =>
          have := sound.records tid key range.1 range.2 old
          simp only [old, widen, Option.some.injEq, Prod.mk.injEq] at recorded
          grind
    · exact sound.records other otherKey low high recorded

/-- If `freeze` or `unlock` returns, this is what it has done. -/
theorem release {visit : Interval → Interval × Bool} {events : Finset Nat}
    (sound : manager.Sound) (lawful : LawfulVisit visit)
    (returned : AVLTreeLockManager.release visit manager tid = .ok (manager', events)) :
    Scans visit manager tid manager' events ∧ manager'.Sound := by
  obtain ⟨last, found, returned', scans⟩ := release_scans lawful sound.trees
    fun key low high recorded known =>
      ⟨release_ranges returned recorded known, sound.records tid key low high recorded⟩
  rw [returned] at returned'
  obtain ⟨rfl, rfl⟩ : manager' = last ∧ events = found := by simpa using returned'
  refine ⟨scans, scans.trees, fun other key low high recorded => ?_⟩
  rw [scans.record] at recorded
  split at recorded
  · exact absurd recorded (by simp)
  · exact sound.records other key low high recorded

end AVLTreeLockManager.Sound

/-- 64-bit timestamps, and locks only in ranges that are not empty. -/
def ManagerCall.Wired (manager : AVLTreeLockManager) : ManagerCall → Prop
  | .tryBackwardLock _ _ tsEnd _ _ _ => tsEnd ≤ uintMax
  | .tryLock key _ tsStart tsEnd isRead =>
      tsStart ≤ tsEnd ∧ tsEnd ≤ uintMax ∧ manager.StaysWithin key tsStart tsEnd isRead
  | .freeze _ | .unlock _ => True

theorem AVLTreeLockManager.Sound.apply {call : ManagerCall} (sound : manager.Sound)
    (wired : call.Wired manager) (applied : call.apply manager = .ok manager') :
    manager'.Sound := by
  cases call with
  | tryBackwardLock key tid tsEnd isRead event tsStart =>
      obtain ⟨last, stopTs, stop, returned, walks, record⟩ :=
        tryBackwardLock_walks sound.trees wired key tid isRead event tsStart
      simp only [ManagerCall.apply, returned, bind, Except.bind] at applied
      cases applied
      exact sound.gain walks.trees wired record
  | tryLock key tid tsStart tsEnd isRead =>
      obtain ⟨ordered, bound, within⟩ := wired
      rcases Nat.eq_zero_or_pos tsStart with rfl | positive
      · simp only [ManagerCall.apply, bind, Except.bind] at applied
        split at applied
        · exact absurd applied (by simp)
        · next outcome returned =>
            cases applied
            obtain ⟨trees, same | record⟩ := tryLock_zero sound.trees bound returned
            · exact sound.sameView trees same
            · exact sound.gain trees bound record
      · obtain ⟨manager₁, info, locks, examined, searched⟩ :=
          exists_searched sound.trees key positive ordered bound isRead
        by_cases pass : ∀ node ∈ examined, searchVisit isRead (info.heap.pub node) ≠ none
        · obtain ⟨last, chosen, returned, takes, -⟩ :=
            searched.tryLock_within positive ordered pass
              ((searched.visitsWithin_iff sound.trees positive ordered bound).2 within) tid
          simp only [ManagerCall.apply, returned, bind, Except.bind] at applied
          cases applied
          exact sound.gain takes.trees bound takes.record
        · simp only [ManagerCall.apply, searched.tryLock_of_refusal pass tid, bind,
            Except.bind] at applied
          cases applied
          exact sound.sameView searched.trees searched.same
  | freeze tid =>
      simp only [ManagerCall.apply, bind, Except.bind] at applied
      split at applied
      · exact absurd applied (by simp)
      · next outcome returned =>
          cases applied
          exact (sound.release (lawfulVisit_freezeVisit tid) returned).2
  | unlock tid =>
      simp only [ManagerCall.apply, bind, Except.bind] at applied
      split at applied
      · exact absurd applied (by simp)
      · next outcome returned =>
          cases applied
          exact (sound.release (lawfulVisit_unlockVisit tid) returned).2

end Mvtx.Lock
