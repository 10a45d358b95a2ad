import Mvtx.Lock.Timeline

/-!
# What tryBackwardLock does

The walk of `tryBackwardLock` ends at the first interval that it cannot pass.
`Backward` says what this does to the timelines, the events and the recorded
ranges, and `tryBackwardLock_eq` that the operation always gets there.
-/

namespace Mvtx.Lock

open Lib Lib.AvlTree Lib.LinkedTree AVLTreeLockNode AVLTreeLockManager

/-- What `tryBackwardLock` makes of an interval that it walks past. -/
def claim (tid : Nat) (isRead : Bool) (lock : Interval) : Interval :=
  match lock.status with
  | .free =>
      { lock with
        status := if isRead then .readLock else .writeLock
        tids := insert tid lock.tids }
  | .readLock => if isRead then { lock with tids := insert tid lock.tids } else lock
  | _ => lock

@[simp] theorem claim_startTs (tid : Nat) (isRead : Bool) (lock : Interval) :
    (claim tid isRead lock).startTs = lock.startTs := by
  unfold claim
  repeat' split
  all_goals rfl

@[simp] theorem claim_endTs (tid : Nat) (isRead : Bool) (lock : Interval) :
    (claim tid isRead lock).endTs = lock.endTs := by
  unfold claim
  repeat' split
  all_goals rfl

theorem claim_eq_self {tid : Nat} {isRead : Bool} {lock : Interval}
    (frozen : lock.status.frozen = true) : claim tid isRead lock = lock := by
  unfold claim
  cases status : lock.status <;> simp_all [LockStatus.frozen]

/-! ## One visit -/

section Visit

variable {info : KeyInfo} {tid event curTs : Nat} {isRead : Bool} {node : Address}

theorem backwardVisit_of_passes
    (passes : (info.heap.pub node).status.passes isRead = true) :
    backwardVisit info tid isRead event node curTs =
      ({ info with heap := info.heap.modifyPub node (claim tid isRead) },
        uintPred (info.heap.pub node).startTs, true) := by
  unfold backwardVisit
  cases status : (info.heap.pub node).status <;> cases isRead <;>
    simp_all [LockStatus.passes, NodeHeap.modifyPub, claim]

theorem backwardVisit_of_not_passes
    (stops : (info.heap.pub node).status.passes isRead = false) :
    backwardVisit info tid isRead event node curTs =
      (if (info.heap.pub node).status.waits isRead then
          info.addEvent (info.heap.pub node).endTs event
        else info,
        curTs, !(info.heap.pub node).status.waits isRead) := by
  unfold backwardVisit
  cases status : (info.heap.pub node).status <;> cases isRead <;>
    simp_all [LockStatus.passes, LockStatus.waits]

end Visit

/-! ## The loop -/

/-- The information of a key after a walk past some nodes to one where it stops. -/
def walked (info : KeyInfo) (tid : Nat) (isRead : Bool) (event : Nat)
    (passed : List Address) (stop : Address) : KeyInfo where
  root := info.root
  heap := { info.heap with
    pub := fun node =>
      if node ∈ passed then claim tid isRead (info.heap.pub node)
      else info.heap.pub node }
  events :=
    if (info.heap.pub stop).status.waits isRead then
      (info.addEvent (info.heap.pub stop).endTs event).events
    else info.events

theorem Laid.not_passes_origin
    {heap : NodeHeap} {rootPtr node : Address} {nodes : List Address} {isRead : Bool}
    (laid : Laid heap rootPtr nodes) (member : node ∈ nodes)
    (passes : (heap.pub node).status.passes isRead = true) :
    (heap.pub node).startTs ≠ 0 := by
  intro zero
  rw [laid.eq_origin member zero] at passes
  simp [originInterval, LockStatus.passes] at passes

/-- Claiming a node that the walk can pass keeps the tree laid out. -/
theorem Laid.modifyPub_claim
    {heap : NodeHeap} {rootPtr node : Address} {nodes : List Address}
    {tid : Nat} {isRead : Bool}
    (laid : Laid heap rootPtr nodes) :
    Laid (heap.modifyPub node (claim tid isRead)) rootPtr nodes := by
  refine laid.setPub (fun other _ => ?_) (fun other _ isOrigin => ?_)
  · by_cases same : other = node
    · subst same
      simp
    · simp [same]
  · by_cases same : other = node
    · subst same
      rw [Function.update_self, isOrigin]
      rfl
    · simp [same, isOrigin]

theorem backwardLoop_eq
    {info : KeyInfo} {rootPtr last : Address} {earlier above locks : List Address}
    {curTs fuel : Nat} (tid event : Nat) (isRead : Bool)
    (laid : Laid info.heap rootPtr (earlier ++ last :: above))
    (pending : Pending info.heap.links locks (earlier ++ [last]))
    (covers : (info.heap.pub last).Covers curTs)
    (enough : earlier.length < fuel) :
    ∃ stay stop passed,
      earlier ++ [last] = stay ++ stop :: passed ∧
        (∀ node ∈ passed, (info.heap.pub node).status.passes isRead = true) ∧
        (info.heap.pub stop).status.passes isRead = false ∧
        backwardLoop tid isRead event fuel info locks curTs =
          .ok (walked info tid isRead event passed stop, .stopped,
            if passed = [] then curTs else (info.heap.pub stop).endTs,
            !(info.heap.pub stop).status.waits isRead) := by
  induction fuel generalizing info earlier last above locks curTs with
  | zero => simp at enough
  | succ fuel ih =>
      obtain ⟨-, -, -, rest, -, rfl, -, -, -⟩ := pending.exists_top
      have placed : ¬ (curTs < (info.heap.pub last).startTs ∨
          (info.heap.pub last).endTs < curTs) := by
        have := covers.1
        have := covers.2
        omega
      obtain ⟨ordered, bound⟩ := laid.ordered
      cases passes : (info.heap.pub last).status.passes isRead with
      | false =>
          refine ⟨earlier, last, [], rfl, by simp, passes, ?_⟩
          have stops : curTs ≠ uintPred (info.heap.pub last).startTs := by
            have ⟨starts, ends⟩ := covers
            by_cases zero : (info.heap.pub last).startTs = 0
            · rw [laid.eq_origin (by simp) zero] at ends ⊢
              simp only [originInterval] at ends
              rw [Nat.le_zero.1 ends]
              decide
            · rw [uintPred_eq (by omega)]
              omega
          simp only [backwardLoop, placed, if_false, backwardVisit_of_not_passes passes,
            stops, ne_eq, not_false_eq_true, if_true, walked, List.not_mem_nil]
          split <;> rfl
      | true =>
          have positive := laid.not_passes_origin (by simp) passes
          let heap' := info.heap.modifyPub last (claim tid isRead)
          let info' : KeyInfo := { info with heap := heap' }
          have laid' : Laid heap' rootPtr (earlier ++ last :: above) :=
            laid.modifyPub_claim
          have sameStart : (heap'.pub last).startTs = (info.heap.pub last).startTs := by
            simp [heap', NodeHeap.modifyPub]
          obtain ⟨earlier', previous, stack, rfl, pred, found, pending'⟩ :=
            laid'.step_back pending (sameStart ▸ positive)
          rw [sameStart] at pred found
          have fresh : last ∉ earlier' ++ [previous] := laid.last_not_mem
          have pubOld : ∀ node ∈ earlier' ++ [previous],
              heap'.pub node = info.heap.pub node := by
            intro node member
            refine Function.update_of_ne ?_ _ _
            rintro rfl
            exact fresh member
          rw [List.append_assoc] at laid'
          have previousOrdered := laid'.ordered
          have covers' : (heap'.pub previous).Covers
              (uintPred (info.heap.pub last).startTs) := by
            rw [pred]
            exact ⟨previousOrdered.1, Nat.le_refl _⟩
          simp only [List.length_append, List.length_cons, List.length_nil] at enough
          obtain ⟨stay, stop, passed, split, allPass, stops, looped⟩ :=
            ih (show Laid info'.heap rootPtr _ from laid') pending' covers' (by omega)
          have pubStop : heap'.pub stop = info.heap.pub stop :=
            pubOld stop (by simp [split])
          have pubPassed : ∀ node ∈ passed, heap'.pub node = info.heap.pub node :=
            fun node member => pubOld node (by simp [split, member])
          refine ⟨stay, stop, passed ++ [last], by simp [split], ?_, ?_, ?_⟩
          · intro node member
            rcases List.mem_append.1 member with old | here
            · rw [← pubPassed node old]
              exact allPass node old
            · obtain rfl := List.mem_singleton.1 here
              exact passes
          · rw [← pubStop]
            exact stops
          · have endsAt : (if passed = [] then uintPred (info.heap.pub last).startTs
                else (heap'.pub stop).endTs) = (info.heap.pub stop).endTs := by
              split
              · next none =>
                  subst none
                  obtain ⟨-, same⟩ := List.append_inj' split rfl
                  obtain rfl : previous = stop := by simpa using same
                  rw [pred, pubStop]
              · rw [pubStop]
            have sameWalk : walked info' tid isRead event passed stop =
                walked info tid isRead event (passed ++ [last]) stop := by
              have samePub : (fun node => if node ∈ passed then
                    claim tid isRead (heap'.pub node) else heap'.pub node) =
                  fun node => if node ∈ passed ++ [last] then
                    claim tid isRead (info.heap.pub node) else info.heap.pub node := by
                funext node
                by_cases same : node = last
                · subst same
                  have notPassed : node ∉ passed := fun member =>
                    fresh (by simp [split, member])
                  simp [notPassed, heap', NodeHeap.modifyPub]
                · simp [same, heap', NodeHeap.modifyPub]
              simp only [walked, info', samePub, pubStop, KeyInfo.addEvent]
              rfl
            have visited : backwardVisit info tid isRead event last curTs = _ :=
              backwardVisit_of_passes passes
            simp only [backwardLoop, placed, if_false, visited, ne_eq, not_true_eq_false]
            rw [show info.heap.modifyPub last (claim tid isRead) = heap' from rfl, found]
            simp only [bind, Except.bind]
            rw [show ({ info with heap := heap' } : KeyInfo) = info' from rfl, looped,
              endsAt, sameWalk, pubStop]
            simp

/-! ## The operation -/

/-- The intervals that `tryBackwardLock` makes of one when it cuts it at its end. -/
def entryPieces (isRead : Bool) (tsEnd : Nat) (lock : Interval) : List Interval :=
  if lock.startTs ≤ tsEnd ∧ splitsAt isRead lock tsEnd = true then
    [{ lock with endTs := tsEnd }, { lock with startTs := tsEnd + 1 }]
  else [lock]

/-- What becomes of an interval when the walk from `tsEnd` stops at `stopTs`. -/
def backwardPieces (tid : Nat) (isRead : Bool) (stopTs tsEnd : Nat)
    (lock : Interval) : List Interval :=
  (entryPieces isRead tsEnd lock).map fun piece =>
    if stopTs < piece.startTs ∧ piece.endTs ≤ tsEnd then claim tid isRead piece
    else piece

theorem splitsAt_eq {isRead : Bool} {lock : Interval} {ts : Nat} :
    splitsAt isRead lock ts = true ↔
      lock.status.passes isRead = true ∧ lock.status.frozen = false ∧
        ts < lock.endTs := by
  unfold splitsAt
  cases lock.status <;> cases isRead <;>
    simp [LockStatus.passes, LockStatus.frozen]

theorem entryPieces_eq_self {isRead : Bool} {tsEnd : Nat} {lock : Interval}
    (outside : lock.endTs ≤ tsEnd ∨ tsEnd < lock.startTs) :
    entryPieces isRead tsEnd lock = [lock] := by
  refine if_neg fun inside => ?_
  have := (splitsAt_eq.1 inside.2).2.2
  omega

/-- The entry finds the interval of the timestamp and cuts it if it has to. -/
theorem backwardEntry_eq
    {info : KeyInfo} {hit : Address} {earlier later : List Address}
    {tsEnd : Nat} (isRead : Bool)
    (laid : Laid info.heap info.root (earlier ++ hit :: later))
    (covers : (info.heap.pub hit).Covers tsEnd) :
    ∃ heap rootPtr locks later',
      backwardEntry info tsEnd isRead = .ok (heap, rootPtr, locks) ∧
        Laid heap rootPtr (earlier ++ hit :: later') ∧
        Pending heap.links locks (earlier ++ [hit]) ∧
        (heap.pub hit).Covers tsEnd ∧
        heap.pub hit :: later'.map heap.pub =
          (info.heap.pub hit :: later.map info.heap.pub).flatMap
            (entryPieces isRead tsEnd) ∧
        (∀ node ∈ earlier, heap.pub node = info.heap.pub node) ∧
        heap.pub hit =
          if splitsAt isRead (info.heap.pub hit) tsEnd then
            { info.heap.pub hit with endTs := tsEnd }
          else info.heap.pub hit := by
  obtain ⟨locks, found, pending⟩ := laid.find_root covers
  obtain ⟨-, -, -, rest, -, rfl, -, -, -⟩ := pending.exists_top
  have laterSelf : (later.map info.heap.pub).flatMap (entryPieces isRead tsEnd) =
      later.map info.heap.pub := by
    refine (List.flatMap_congr fun lock member => ?_).trans (List.flatMap_singleton' _)
    obtain ⟨node, isLater, rfl⟩ := List.mem_map.1 member
    exact entryPieces_eq_self (.inr ((laid.around covers).2 node isLater))
  unfold backwardEntry
  rw [found]
  simp only [bind, Except.bind, pop]
  cases splits : splitsAt isRead (info.heap.pub hit) tsEnd with
  | false =>
      refine ⟨info.heap, info.root, hit :: rest, later, rfl, laid, pending, covers, ?_,
        fun _ _ => rfl, by simp⟩
      rw [List.flatMap_cons, laterSelf, entryPieces, if_neg (by simp [splits])]
      rfl
  | true =>
      obtain ⟨heap', rootPtr', inserted, laid', pubHit, pubNew, pubOther⟩ :=
        laid.cut_above ⟨covers.1, (splitsAt_eq.1 splits).2.2⟩ rfl
      have covers' : (heap'.pub hit).Covers tsEnd := by
        rw [pubHit]
        exact ⟨covers.1, Nat.le_refl _⟩
      obtain ⟨locks', found', pending'⟩ := laid'.find_root covers'
      refine ⟨heap', rootPtr', locks', info.heap.size :: later, ?_, laid', pending',
        covers', ?_, ?_, by rw [pubHit, if_pos rfl]⟩
      · have inserted' := inserted
        simp only [NodeHeap.allocate] at inserted' ⊢
        simp only [if_true, inserted', found']
        rfl
      · rw [List.flatMap_cons, laterSelf, entryPieces, if_pos ⟨covers.1, splits⟩,
          pubHit, List.map_cons, pubNew]
        refine congrArg _ (congrArg _ ?_)
        exact List.map_congr_left fun node member => pubOther node (by simp [member])
      · exact fun node member => pubOther node (by simp [member])

/--
What `tryBackwardLock` does to the trees when its walk stops at the timestamp
`stopTs` in the interval `stop`.
-/
structure WalksBack (manager : AVLTreeLockManager) (key tid tsEnd : Nat)
    (isRead : Bool) (event stopTs : Nat) (stop : Interval)
    (manager' : AVLTreeLockManager) : Prop where
  trees : manager'.Trees
  member : stop ∈ manager.timeline key
  covers : stop.Covers stopTs
  stops : stop.status.passes isRead = false
  le : stopTs ≤ tsEnd
  atEnd : stopTs < tsEnd → stopTs = stop.endTs
  passed : ∀ ts, stopTs < ts → ts ≤ tsEnd → ∀ lock ∈ manager.timeline key,
    lock.Covers ts → lock.status.passes isRead = true
  timeline : ∀ other, manager'.timeline other =
    if other = key then
      (manager.timeline key).flatMap (backwardPieces tid isRead stopTs tsEnd)
    else manager.timeline other
  eventsAt : ∀ other ts, manager'.eventsAt other ts =
    if other = key ∧ ts = stop.endTs ∧ stop.status.waits isRead = true then
      insert event (manager.eventsAt other ts)
    else manager.eventsAt other ts
  keyMap : manager'.keyMap key ≠ none

/--
The effect of `tryBackwardLock` when its walk stops at the timestamp `stopTs`
in the interval `stop`.
-/
structure Backward (manager : AVLTreeLockManager) (key tid tsEnd : Nat)
    (isRead : Bool) (event stopTs : Nat) (stop : Interval)
    (manager' : AVLTreeLockManager) : Prop where
  wellFormed : manager'.WellFormed
  member : stop ∈ manager.timeline key
  covers : stop.Covers stopTs
  stops : stop.status.passes isRead = false
  le : stopTs ≤ tsEnd
  atEnd : stopTs < tsEnd → stopTs = stop.endTs
  passed : ∀ ts, stopTs < ts → ts ≤ tsEnd → ∀ lock ∈ manager.timeline key,
    lock.Covers ts → lock.status.passes isRead = true
  timeline : ∀ other, manager'.timeline other =
    if other = key then
      (manager.timeline key).flatMap (backwardPieces tid isRead stopTs tsEnd)
    else manager.timeline other
  eventsAt : ∀ other ts, manager'.eventsAt other ts =
    if other = key ∧ ts = stop.endTs ∧ stop.status.waits isRead = true then
      insert event (manager.eventsAt other ts)
    else manager.eventsAt other ts
  record : ∀ other otherKey, manager'.record other otherKey =
    if other = tid ∧ otherKey = key then
      some (widen (manager.record tid key) (stopTs + 1) tsEnd)
    else manager.record other otherKey
  keyMap : manager'.keyMap key ≠ none

theorem Backward.walks {manager manager' : AVLTreeLockManager}
    {key tid tsEnd event stopTs : Nat} {isRead : Bool} {stop : Interval}
    (backward : Backward manager key tid tsEnd isRead event stopTs stop manager') :
    WalksBack manager key tid tsEnd isRead event stopTs stop manager' where
  trees := backward.wellFormed.trees
  member := backward.member
  covers := backward.covers
  stops := backward.stops
  le := backward.le
  atEnd := backward.atEnd
  passed := backward.passed
  timeline := backward.timeline
  eventsAt := backward.eventsAt
  keyMap := backward.keyMap

/-- Which nodes of a walk lie between the stop and the end. -/
theorem claimed_iff
    {heap : NodeHeap} {rootPtr stop node : Address} {stay passed later : List Address}
    {stopTs tsEnd : Nat}
    (laid : Laid heap rootPtr (stay ++ stop :: (passed ++ later)))
    (covers : (heap.pub stop).Covers stopTs)
    (atEnd : passed ≠ [] → stopTs = (heap.pub stop).endTs)
    (above : ∀ node ∈ later, tsEnd < (heap.pub node).startTs)
    (member : node ∈ stay ++ stop :: (passed ++ later)) :
    (stopTs < (heap.pub node).startTs ∧ (heap.pub node).endTs ≤ tsEnd ↔
      node ∈ passed ∧ (heap.pub node).endTs ≤ tsEnd) := by
  have ordered := laid.end_le member
  have nodup := laid.nodup
  obtain ⟨low, high⟩ := laid.around ⟨covers.1, covers.2⟩
  have notPassed : node ∈ stay ∨ node = stop ∨ node ∈ later → node ∉ passed := by
    rw [List.nodup_append, List.nodup_cons, List.nodup_append] at nodup
    rintro (inStay | rfl | inLater) inPassed
    · exact nodup.2.2 node inStay node (by simp [inPassed]) rfl
    · exact nodup.2.1.1 (by simp [inPassed])
    · exact nodup.2.1.2.2.2 node inPassed node inLater rfl
  simp only [List.mem_append, List.mem_cons] at member
  rcases member with inStay | rfl | inPassed | inLater
  · have := low node inStay
    simp only [notPassed (.inl inStay), false_and, iff_false]
    omega
  · have := covers.1
    simp only [notPassed (.inr (.inl rfl)), false_and, iff_false]
    omega
  · have := high node (by simp [inPassed])
    simp only [inPassed, true_and, and_iff_right_iff_imp]
    omega
  · have := above node inLater
    simp only [notPassed (.inr (.inr inLater)), false_and, iff_false]
    omega

theorem claim_of_passes_of_not_splits {tid ts : Nat} {isRead : Bool} {lock : Interval}
    (passes : lock.status.passes isRead = true)
    (whole : splitsAt isRead lock ts = false) (longer : ts < lock.endTs) :
    claim tid isRead lock = lock := by
  refine claim_eq_self ?_
  by_contra notFrozen
  rw [splitsAt_eq.2 ⟨passes, by simpa using notFrozen, longer⟩] at whole
  exact absurd whole (by decide)

/-- The walk of `tryBackwardLock` through the tree of one key. -/
theorem backwardWalk_eq
    {info : KeyInfo} {tsEnd : Nat}
    (laid : info.WellFormed) (bound : tsEnd ≤ uintMax)
    (tid : Nat) (isRead : Bool) (event : Nat) :
    ∃ heap rootPtr locks info' stopTs stop,
      backwardEntry info tsEnd isRead = .ok (heap, rootPtr, locks) ∧
        backwardLoop tid isRead event heap.fuel { info with heap := heap } locks tsEnd =
          .ok (info', .stopped, stopTs, !stop.status.waits isRead) ∧
        KeyInfo.WellFormed { info' with root := rootPtr } ∧
        KeyInfo.timeline { info' with root := rootPtr } =
          info.timeline.flatMap (backwardPieces tid isRead stopTs tsEnd) ∧
        info'.events =
          (if stop.status.waits isRead then (info.addEvent stop.endTs event).events
          else info.events) ∧
        stop ∈ info.timeline ∧ stop.Covers stopTs ∧
        stop.status.passes isRead = false ∧ stopTs ≤ tsEnd ∧
        (stopTs < tsEnd → stopTs = stop.endTs) ∧
        ∀ ts, stopTs < ts → ts ≤ tsEnd → ∀ lock ∈ info.timeline,
          lock.Covers ts → lock.status.passes isRead = true := by
  have laid : Laid info.heap info.root info.nodes := laid
  obtain ⟨earlier, hit, later, order, covers⟩ := laid.exists_cover bound
  rw [order] at laid
  obtain ⟨heap, rootPtr, locks, later', entered, laid', pending, covers', pieces,
    pubEarlier, pubHit⟩ := backwardEntry_eq isRead laid covers
  obtain ⟨stay, stop, passed, split, allPass, stops, looped⟩ :=
    backwardLoop_eq tid event isRead
      (show Laid ({ info with heap := heap } : KeyInfo).heap rootPtr _ from laid')
      pending covers' (show earlier.length < heap.fuel by
        have short := laid'.length_lt_fuel
        simp only [List.length_append, List.length_cons] at short
        omega)
  generalize stopEq : (if passed = [] then tsEnd else (heap.pub stop).endTs) = stopTs
    at looped
  have order' : earlier ++ hit :: later' = stay ++ stop :: (passed ++ later') := by
    have := congrArg (· ++ later') split
    simpa using this
  have stopInNodes : stop ∈ earlier ++ hit :: later' := by simp [order']
  have laid'' := laid'
  rw [order'] at laid''
  have high : ∀ node ∈ later', tsEnd < (heap.pub node).startTs :=
    fun node member => (laid'.around covers').2 node member
  have stopOrdered := laid'.end_le stopInNodes
  have stopOld : stop ∈ earlier ++ hit :: later := by
    have : stop ∈ earlier ++ [hit] := by simp [split]
    simp only [List.mem_append, List.mem_cons, List.not_mem_nil, or_false] at this ⊢
    tauto
  -- Where the walk ends.
  have passedOrHit : passed = [] ∧ stop = hit ∨
      ∃ middle, passed = middle ++ [hit] ∧ earlier = stay ++ stop :: middle := by
    rcases List.eq_nil_or_concat passed with rfl | ⟨middle, last, rfl⟩
    · obtain ⟨-, sameStop⟩ := List.append_inj' split rfl
      exact .inl ⟨rfl, by simpa using sameStop.symm⟩
    · rw [List.concat_eq_append, ← List.cons_append, ← List.append_assoc] at split
      obtain ⟨sameEarlier, sameLast⟩ := List.append_inj' split rfl
      obtain rfl : hit = last := by simpa using sameLast
      exact .inr ⟨middle, List.concat_eq_append, sameEarlier⟩
  have pubStop : heap.pub stop = info.heap.pub stop := by
    rcases passedOrHit with ⟨-, rfl⟩ | ⟨middle, -, rfl⟩
    · rw [pubHit, if_neg]
      intro splits
      have passes := (splitsAt_eq.1 splits).1
      rw [pubHit, if_pos splits] at stops
      simp [passes] at stops
    · exact pubEarlier stop (by simp)
  have stopCovers : (heap.pub stop).Covers stopTs := by
    subst stopEq
    rcases passedOrHit with ⟨rfl, rfl⟩ | ⟨middle, rfl, -⟩
    · simpa using covers'
    · simpa using ⟨stopOrdered.1, Nat.le_refl _⟩
  have atEnd : passed ≠ [] → stopTs = (heap.pub stop).endTs := by
    intro nonempty
    rw [← stopEq, if_neg nonempty]
  have stopLe : stopTs ≤ tsEnd := by
    rcases passedOrHit with ⟨rfl, rfl⟩ | ⟨middle, rfl, rfl⟩
    · rw [← stopEq, if_pos rfl]
    · have := (laid'.around covers').1 stop (by simp)
      have := atEnd (by simp)
      omega
  -- The new timeline.
  have nodesEq : info.timeline.flatMap (entryPieces isRead tsEnd) =
      (earlier ++ hit :: later').map heap.pub := by
    have earlierSelf : (earlier.map info.heap.pub).flatMap (entryPieces isRead tsEnd) =
        earlier.map heap.pub := by
      refine (List.flatMap_congr fun lock member => ?_).trans
        ((List.flatMap_singleton' _).trans
          (List.map_congr_left fun node member => (pubEarlier node member).symm))
      obtain ⟨node, isEarlier, rfl⟩ := List.mem_map.1 member
      have := (laid.around covers).1 node isEarlier
      exact entryPieces_eq_self (.inl (by omega))
    rw [KeyInfo.timeline, order, List.map_append, List.flatMap_append, earlierSelf,
      List.map_cons, ← pieces, List.map_append, List.map_cons]
  have walkedPub : ∀ node ∈ earlier ++ hit :: later',
      (if node ∈ passed then claim tid isRead (heap.pub node) else heap.pub node) =
        if stopTs < (heap.pub node).startTs ∧ (heap.pub node).endTs ≤ tsEnd then
          claim tid isRead (heap.pub node)
        else heap.pub node := by
    intro node member
    have iff := claimed_iff laid'' stopCovers atEnd high (order' ▸ member)
    by_cases inPassed : node ∈ passed
    · by_cases ends : (heap.pub node).endTs ≤ tsEnd
      · rw [if_pos inPassed, if_pos (iff.2 ⟨inPassed, ends⟩)]
      · rw [if_pos inPassed, if_neg fun both => ends both.2]
        -- Only a frozen interval on top reaches beyond the end, and stays as it is.
        have isHit : node = hit := by
          rcases passedOrHit with ⟨rfl, -⟩ | ⟨middle, rfl, rfl⟩
          · simp at inPassed
          · rcases List.mem_append.1 inPassed with inMiddle | here
            · have := (laid'.around covers').1 node (by simp [inMiddle])
              omega
            · simpa using here
        subst isHit
        have passes := allPass node inPassed
        rw [pubHit] at ends passes ⊢
        cases splits : splitsAt isRead (info.heap.pub node) tsEnd with
        | true => simp [splits] at ends
        | false =>
            simp only [splits, Bool.false_eq_true, if_false] at ends passes ⊢
            exact claim_of_passes_of_not_splits passes splits (by omega)
    · rw [if_neg inPassed, if_neg fun both => inPassed (iff.1 both).1]
  have laidEnd : Laid (walked { info with heap := heap } tid isRead event passed stop).heap
      rootPtr (earlier ++ hit :: later') := by
    refine laid'.setPub (fun node member => ?_) (fun node member isOrigin => ?_)
    · dsimp only
      split <;> simp
    · dsimp only
      rw [claim_eq_self (by rw [isOrigin]; rfl), ite_self, isOrigin]
  obtain ⟨wellFormed', nodes'⟩ := Laid.wellFormed
    { walked { info with heap := heap } tid isRead event passed stop with
      root := rootPtr } laidEnd
  refine ⟨heap, rootPtr, locks,
    walked { info with heap := heap } tid isRead event passed stop, stopTs,
    info.heap.pub stop, entered, ?_, wellFormed', ?_, ?_, ?_, ?_, ?_, stopLe, ?_, ?_⟩
  · rw [looped, ← pubStop]
  · rw [KeyInfo.timeline, nodes']
    have pieces' : info.timeline.flatMap (backwardPieces tid isRead stopTs tsEnd) =
        (info.timeline.flatMap (entryPieces isRead tsEnd)).map fun piece =>
          if stopTs < piece.startTs ∧ piece.endTs ≤ tsEnd then claim tid isRead piece
          else piece := by
      rw [List.map_flatMap]
      rfl
    rw [pieces', nodesEq, List.map_map]
    exact List.map_congr_left walkedPub
  · rw [← pubStop]
    rfl
  · rw [KeyInfo.timeline, order]
    exact List.mem_map_of_mem stopOld
  · rw [← pubStop]
    exact stopCovers
  · rw [← pubStop]
    exact stops
  · intro below
    rw [← pubStop]
    refine atEnd ?_
    rintro rfl
    rw [if_pos rfl] at stopEq
    omega
  · intro ts aboveStop belowEnd lock member lockCovers
    rw [KeyInfo.timeline, order] at member
    obtain ⟨node, inNodes, rfl⟩ := List.mem_map.1 member
    obtain ⟨low, -⟩ := laid''.around stopCovers
    rcases passedOrHit with ⟨rfl, rfl⟩ | ⟨middle, rfl, rfl⟩
    · rw [if_pos rfl] at stopEq
      omega
    · have ends := atEnd (by simp)
      obtain ⟨starts, reaches⟩ := lockCovers
      rcases List.mem_append.1 inNodes with inEarlier | inRest
      · rw [← pubEarlier node inEarlier] at starts reaches ⊢
        simp only [List.mem_append, List.mem_cons] at inEarlier
        rcases inEarlier with inStay | rfl | inMiddle
        · have := low node inStay
          omega
        · omega
        · exact allPass node (by simp [inMiddle])
      · rcases List.mem_cons.1 inRest with rfl | inLater
        · have passes := allPass node (by simp)
          have status : (heap.pub node).status = (info.heap.pub node).status := by
            rw [pubHit]
            split <;> rfl
          exact status ▸ passes
        · have := (laid.around covers).2 node inLater
          omega

/--
`tryBackwardLock` returns for every timestamp, and this is what it has done to
the trees.  What it records starts one past the stop, where it wraps around if
the walk has stopped at the last timestamp.
-/
theorem tryBackwardLock_walks
    {manager : AVLTreeLockManager} {tsEnd : Nat}
    (trees : manager.Trees) (bound : tsEnd ≤ uintMax)
    (key tid : Nat) (isRead : Bool) (event tsStart : Nat) :
    ∃ manager' stopTs stop,
      manager.tryBackwardLock key tid tsEnd isRead event tsStart =
          .ok (manager', !stop.status.waits isRead, uintSucc stopTs) ∧
        WalksBack manager key tid tsEnd isRead event stopTs stop manager' ∧
        ∀ other otherKey, manager'.record other otherKey =
          if other = tid ∧ otherKey = key then
            some (widen (manager.record tid key) (uintSucc stopTs) tsEnd)
          else manager.record other otherKey := by
  obtain ⟨manager₁, info, created, present, trees₁, same, -⟩ :=
    createKeyInfo_trees trees key
  obtain ⟨heap, rootPtr, locks, info', stopTs, stop, entered, looped, wellFormed',
    timelineEq, eventsEq, member, covers, stops, le, atEnd, passed⟩ :=
    backwardWalk_eq (trees₁ key info present) bound tid isRead event
  have oldTimeline : info.timeline = manager.timeline key := by
    rw [← same.timeline, timeline_eq present]
  refine ⟨(manager₁.addTransactionLock tid key (uintSucc stopTs) tsEnd).setKeyInfo key
    { info' with root := rootPtr }, stopTs, stop, ?_, ?_, fun other otherKey => ?_⟩
  · unfold tryBackwardLock
    rw [created]
    simp only [bind, Except.bind, present, deref, entered, looped]
    rfl
  · have trees₂ : (manager₁.addTransactionLock tid key (uintSucc stopTs) tsEnd).Trees :=
      trees₁
    refine
      { trees := trees₂.setKeyInfo wellFormed'
        member := oldTimeline ▸ member
        covers := covers
        stops := stops
        le := le
        atEnd := atEnd
        passed := oldTimeline ▸ passed
        timeline := fun other => ?_
        eventsAt := fun other ts => ?_
        keyMap := ?_ }
    · rw [timeline_setKeyInfo, timelineEq, oldTimeline]
      split
      · rfl
      · exact same.timeline other
    · have oldEvents : (info.events ts).getD ∅ = manager.eventsAt key ts := by
        rw [← same.eventsAt, eventsAt_eq present]
      have untouched : ∀ other, (manager₁.addTransactionLock tid key (uintSucc stopTs)
          tsEnd).eventsAt other ts = manager.eventsAt other ts :=
        fun other => same.eventsAt other ts
      rw [eventsAt_setKeyInfo, untouched]
      dsimp only
      rw [eventsEq]
      by_cases sameKey : other = key
      · subst sameKey
        by_cases waits : stop.status.waits isRead = true
        · by_cases atStop : ts = stop.endTs
          · subst atStop
            simp [waits, KeyInfo.addEvent, oldEvents]
          · simp [waits, KeyInfo.addEvent, atStop, oldEvents]
        · simp [waits, oldEvents]
      · simp [sameKey]
    · simp [setKeyInfo]
  · rw [record_setKeyInfo, record_addTransactionLock, same.record, same.record]

/-- `tryBackwardLock` returns, and this is what it has done. -/
theorem tryBackwardLock_eq
    {manager : AVLTreeLockManager} {tsEnd : Nat}
    (wellFormed : manager.WellFormed) (bound : tsEnd < uintMax)
    (key tid : Nat) (isRead : Bool) (event tsStart : Nat) :
    ∃ manager' stopTs stop,
      manager.tryBackwardLock key tid tsEnd isRead event tsStart =
          .ok (manager', !stop.status.waits isRead, stopTs + 1) ∧
        Backward manager key tid tsEnd isRead event stopTs stop manager' := by
  obtain ⟨manager', stopTs, stop, returned, walks, record⟩ :=
    tryBackwardLock_walks wellFormed.trees (Nat.le_of_lt bound) key tid isRead event tsStart
  have le := walks.le
  rw [uintSucc_eq (by omega)] at returned record
  refine ⟨manager', stopTs, stop, returned,
    { wellFormed := ⟨walks.trees, fun other otherKey low high recorded => ?_⟩
      member := walks.member
      covers := walks.covers
      stops := walks.stops
      le := walks.le
      atEnd := walks.atEnd
      passed := walks.passed
      timeline := walks.timeline
      eventsAt := walks.eventsAt
      record := record
      keyMap := walks.keyMap }⟩
  rw [record] at recorded
  split at recorded
  · exact widen_bounds (wellFormed.records tid key) (by omega) (Nat.le_of_lt bound)
      (Option.some.inj recorded)
  · exact wellFormed.records other otherKey low high recorded

end Mvtx.Lock
