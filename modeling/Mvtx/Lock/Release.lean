import Mvtx.Lock.Timeline

/-!
# What freeze and unlock do

Both walk every range that the transaction has recorded and change the
intervals there one by one.  `Released` says what this does to the timelines
and which events it collects; the two operations are its instances for
`freezeVisit` and `unlockVisit`.
-/

namespace Mvtx.Lock

open Lib Lib.AvlTree Lib.LinkedTree AVLTreeLockNode AVLTreeLockManager

/-- A visit only changes the status and the holders of read and write locks. -/
structure LawfulVisit (visit : Interval → Interval × Bool) : Prop where
  startTs : ∀ lock, (visit lock).1.startTs = lock.startTs
  endTs : ∀ lock, (visit lock).1.endTs = lock.endTs
  idle : ∀ lock, lock.status ≠ .readLock → lock.status ≠ .writeLock →
    visit lock = (lock, false)

theorem lawfulVisit_freezeVisit (tid : Nat) : LawfulVisit (freezeVisit tid) := by
  constructor <;> intro lock <;> unfold freezeVisit
  all_goals cases status : lock.status <;> simp only [] <;> grind

theorem lawfulVisit_unlockVisit (tid : Nat) : LawfulVisit (unlockVisit tid) := by
  constructor <;> intro lock <;> unfold unlockVisit
  all_goals cases status : lock.status <;> simp only [] <;> grind

/-- Whether an interval meets a recorded range. -/
def met (recorded : Option (Nat × Nat)) (lock : Interval) : Bool :=
  match recorded with
  | none => false
  | some (low, high) => low ≤ high && low ≤ lock.endTs && lock.startTs ≤ high

/-- What a visit to everything in a recorded range makes of an interval. -/
def released (visit : Interval → Interval × Bool) (recorded : Option (Nat × Nat))
    (lock : Interval) : Interval :=
  if met recorded lock then (visit lock).1 else lock

theorem met_eq_true {low high : Nat} {lock : Interval} :
    met (some (low, high)) lock = true ↔
      low ≤ high ∧ low ≤ lock.endTs ∧ lock.startTs ≤ high := by
  simp [met, and_assoc]

variable {visit : Interval → Interval × Bool}

theorem LawfulVisit.released_startTs (lawful : LawfulVisit visit) (recorded : Option (Nat × Nat))
    (lock : Interval) : (released visit recorded lock).startTs = lock.startTs := by
  unfold released
  split
  · exact lawful.startTs lock
  · rfl

theorem LawfulVisit.released_endTs (lawful : LawfulVisit visit) (recorded : Option (Nat × Nat))
    (lock : Interval) : (released visit recorded lock).endTs = lock.endTs := by
  unfold released
  split
  · exact lawful.endTs lock
  · rfl

/-- The information of a key once some of its nodes have been visited. -/
def visited (visit : Interval → Interval × Bool) (recorded : Option (Nat × Nat))
    (unvisited : List Address) (info : KeyInfo) : KeyInfo :=
  { info with
    heap := { info.heap with
      pub := fun node =>
        if node ∈ unvisited then released visit recorded (info.heap.pub node)
        else info.heap.pub node } }

theorem Laid.modifyPub_visit
    {heap : NodeHeap} {rootPtr node : Address} {nodes : List Address}
    (lawful : LawfulVisit visit) (laid : Laid heap rootPtr nodes) :
    Laid (heap.modifyPub node fun lock => (visit lock).1) rootPtr nodes := by
  refine laid.setPub (fun other _ => ?_) (fun other _ isOrigin => ?_)
  · by_cases same : other = node
    · subst same
      simp [lawful.startTs, lawful.endTs]
    · simp [same]
  · by_cases same : other = node
    · subst same
      rw [Function.update_self, isOrigin]
      exact congrArg Prod.fst (lawful.idle originInterval (by decide) (by decide))
    · simp [same, isOrigin]

/-- The loop over one key, from a node whose interval contains the end. -/
theorem scanLoop_eq
    {info : KeyInfo} {rootPtr last : Address} {earlier above locks : List Address}
    {tsStart tsEnd fuel : Nat} (events : Finset Nat)
    (lawful : LawfulVisit visit)
    (laid : Laid info.heap rootPtr (earlier ++ last :: above))
    (pending : Pending info.heap.links locks (earlier ++ [last]))
    (covers : (info.heap.pub last).Covers tsEnd)
    (positive : 1 ≤ tsStart)
    (enough : earlier.length + 1 < fuel) :
    ∃ events',
      scanLoop visit tsStart fuel info locks tsEnd events =
          .ok (visited visit (some (tsStart, tsEnd)) (earlier ++ [last]) info, events') ∧
        ∀ event, event ∈ events' ↔ event ∈ events ∨
          ∃ node ∈ earlier ++ [last],
            met (some (tsStart, tsEnd)) (info.heap.pub node) = true ∧
              (visit (info.heap.pub node)).2 = true ∧
              event ∈ (info.events (info.heap.pub node).endTs).getD ∅ := by
  induction fuel generalizing info earlier last above locks tsEnd events with
  | zero => simp at enough
  | succ fuel ih =>
      by_cases finished : tsEnd < tsStart
      · have noneMet : ∀ lock, met (some (tsStart, tsEnd)) lock = false := by
          intro lock
          rw [Bool.eq_false_iff, ne_eq, met_eq_true]
          omega
        refine ⟨events, ?_, fun event => by simp [noneMet]⟩
        simp [scanLoop, finished, visited, released, noneMet]
      · obtain ⟨-, -, -, rest, -, rfl, -, -, -⟩ := pending.exists_top
        obtain ⟨starts, ends⟩ := covers
        obtain ⟨ordered, bound⟩ := laid.ordered
        have notOrigin : (info.heap.pub last).startTs ≠ 0 := by
          intro zero
          rw [laid.eq_origin (by simp) zero] at ends
          simp only [originInterval] at ends
          omega
        obtain ⟨heap', heapEq⟩ : ∃ heap', heap' =
            info.heap.modifyPub last fun lock => (visit lock).1 := ⟨_, rfl⟩
        have sameLinks : heap'.links = info.heap.links := by rw [heapEq]; rfl
        have laid' : Laid heap' rootPtr (earlier ++ last :: above) :=
          heapEq ▸ laid.modifyPub_visit lawful
        have sameStart : (heap'.pub last).startTs = (info.heap.pub last).startTs := by
          simp [heapEq, NodeHeap.modifyPub, lawful.startTs]
        obtain ⟨earlier', previous, stack, rfl, pred, found, pending'⟩ :=
          laid'.step_back (sameLinks ▸ pending) (sameStart ▸ notOrigin)
        rw [sameStart] at pred found
        generalize beforeEq : uintPred (info.heap.pub last).startTs = before at pred found
        have fresh : last ∉ earlier' ++ [previous] := laid.last_not_mem
        have pubOld : ∀ node ∈ earlier' ++ [previous],
            heap'.pub node = info.heap.pub node := by
          intro node member
          rw [heapEq]
          refine Function.update_of_ne ?_ _ _
          rintro rfl
          exact fresh member
        rw [List.append_assoc] at laid'
        have previousOrdered := laid'.ordered
        have covers' : (heap'.pub previous).Covers before := by
          rw [pred]
          exact ⟨previousOrdered.1, Nat.le_refl _⟩
        simp only [List.length_append, List.length_cons, List.length_nil] at enough
        let events₁ :=
          if (visit (info.heap.pub last)).2 then
            events ∪ (info.events (info.heap.pub last).endTs).getD ∅
          else events
        obtain ⟨events', looped, collected⟩ :=
          ih events₁ (show Laid ({ info with heap := heap' } : KeyInfo).heap rootPtr _
            from laid') pending' covers' (by omega)
        have metLast : met (some (tsStart, tsEnd)) (info.heap.pub last) = true :=
          met_eq_true.2 ⟨by omega, by omega, starts⟩
        -- The rest of the range is met before the visit if and only if it is after it.
        have metRest : ∀ node ∈ earlier' ++ [previous],
            met (some (tsStart, before)) (heap'.pub node) =
              met (some (tsStart, tsEnd)) (info.heap.pub node) := by
          intro node member
          have old := (laid.around ⟨starts, ends⟩).1 node member
          have last' := (laid'.around covers').1
          have upTo : (info.heap.pub node).endTs ≤ (heap'.pub previous).endTs := by
            rw [← pubOld node member]
            rcases List.mem_append.1 member with low | here
            · have := (last' node low).2
              omega
            · obtain rfl := List.mem_singleton.1 here
              exact Nat.le_refl _
          have nonempty := (laid.end_le (List.mem_append_left _ member)).1
          rw [pubOld node member, pred, Bool.eq_iff_iff, met_eq_true, met_eq_true]
          omega
        refine ⟨events', ?_, fun event => ?_⟩
        · have samePub : (fun node => if node ∈ earlier' ++ [previous] then
                released visit (some (tsStart, before)) (heap'.pub node)
                else heap'.pub node) =
              fun node => if node ∈ earlier' ++ [previous] ++ [last] then
                released visit (some (tsStart, tsEnd)) (info.heap.pub node)
                else info.heap.pub node := by
            funext node
            by_cases isLast : node = last
            · subst isLast
              simp only [fresh, if_false, List.mem_append, List.mem_singleton, or_true,
                if_true, released, metLast]
              simp [heapEq, NodeHeap.modifyPub]
            · by_cases member : node ∈ earlier' ++ [previous]
              · rw [if_pos member, if_pos (List.mem_append_left _ member), released,
                  released, metRest node member, pubOld node member]
              · rw [if_neg member, if_neg, heapEq]
                · exact Function.update_of_ne isLast _ _
                · exact fun both => (List.mem_append.1 both).elim member fun here =>
                    isLast (List.mem_singleton.1 here)
          have sameVisited :
              visited visit (some (tsStart, before)) (earlier' ++ [previous])
                  { info with heap := heap' } =
                visited visit (some (tsStart, tsEnd)) (earlier' ++ [previous] ++ [last])
                  info := by
            simp only [visited, samePub]
            rw [heapEq]
            rfl
          rw [scanLoop, if_neg finished]
          simp only [bind, Except.bind, pop]
          have sameHeap : (info.heap.modifyPub last fun _ =>
              (visit (info.heap.pub last)).1) = heap' := heapEq.symm
          rw [sameHeap, beforeEq, found]
          simp only
          rw [← sameVisited]
          exact looped
        · rw [collected]
          have first : event ∈ events₁ ↔ event ∈ events ∨
              ((visit (info.heap.pub last)).2 = true ∧
                event ∈ (info.events (info.heap.pub last).endTs).getD ∅) := by
            simp only [events₁]
            split <;> simp_all
          rw [first, or_assoc]
          refine or_congr_right ⟨?_, ?_⟩
          · rintro (⟨collects, registered⟩ | ⟨node, member, isMet, collects, registered⟩)
            · exact ⟨last, by simp, metLast, collects, registered⟩
            · rw [metRest node member] at isMet
              rw [pubOld node member] at collects registered
              exact ⟨node, List.mem_append_left _ member, isMet, collects, registered⟩
          · rintro ⟨node, member, isMet, collects, registered⟩
            rcases List.mem_append.1 member with old | here
            · refine .inr ⟨node, old, ?_⟩
              rw [metRest node old, pubOld node old]
              exact ⟨isMet, collects, registered⟩
            · obtain rfl := List.mem_singleton.1 here
              exact .inl ⟨collects, registered⟩

/-! ## All the keys of a transaction -/

/-- What the loop does to the timeline of one key. -/
theorem scanKey_eq
    {info : KeyInfo} {low high : Nat}
    (lawful : LawfulVisit visit) (laid : info.WellFormed)
    (positive : 1 ≤ low) (bound : high ≤ uintMax) (events : Finset Nat) :
    ∃ info' events',
      scanKey visit (low, high) info events = .ok (info', events') ∧
        info'.WellFormed ∧ info'.events = info.events ∧
        info'.timeline = info.timeline.map (released visit (some (low, high))) ∧
        ∀ event, event ∈ events' ↔ event ∈ events ∨
          ∃ lock ∈ info.timeline,
            met (some (low, high)) lock = true ∧ (visit lock).2 = true ∧
              event ∈ (info.events lock.endTs).getD ∅ := by
  have laid : Laid info.heap info.root info.nodes := laid
  obtain ⟨earlier, hit, later, order, covers⟩ := laid.exists_cover bound
  rw [order] at laid
  obtain ⟨locks, found, pending⟩ := laid.find_root covers
  obtain ⟨events', looped, collected⟩ :=
    scanLoop_eq events lawful laid pending covers
      positive (show earlier.length + 1 < info.heap.fuel by
        have short := laid.length_lt_fuel
        simp only [List.length_append, List.length_cons] at short
        omega)
  have laterNotMet : ∀ node ∈ later,
      met (some (low, high)) (info.heap.pub node) = false := by
    intro node member
    have := (laid.around covers).2 node member
    rw [Bool.eq_false_iff, ne_eq, met_eq_true]
    omega
  have pubEq : ∀ node ∈ earlier ++ hit :: later,
      (visited visit (some (low, high)) (earlier ++ [hit]) info).heap.pub node =
        released visit (some (low, high)) (info.heap.pub node) := by
    intro node member
    simp only [visited]
    by_cases inRange : node ∈ earlier ++ [hit]
    · rw [if_pos inRange]
    · have isLater : node ∈ later := by
        simp only [List.mem_append, List.mem_cons, List.not_mem_nil, or_false,
          not_or] at member inRange
        grind
      rw [if_neg inRange, released, laterNotMet node isLater]
      rfl
  have releasedBounds : ∀ lock,
      (released visit (some (low, high)) lock).startTs = lock.startTs ∧
        (released visit (some (low, high)) lock).endTs = lock.endTs := by
    intro lock
    unfold released
    split
    · exact ⟨lawful.startTs lock, lawful.endTs lock⟩
    · exact ⟨rfl, rfl⟩
  have laid' : Laid (visited visit (some (low, high)) (earlier ++ [hit]) info).heap
      info.root (earlier ++ hit :: later) := by
    refine laid.setPub (fun node member => ?_) (fun node member isOrigin => ?_)
    · have := pubEq node member
      simp only [visited] at this
      rw [this]
      exact releasedBounds _
    · have := pubEq node member
      simp only [visited] at this
      rw [this, isOrigin]
      have idle : (visit originInterval).1 = originInterval :=
        congrArg Prod.fst (lawful.idle originInterval (by decide) (by decide))
      unfold released
      rw [idle, ite_self]
  obtain ⟨wellFormed, nodes⟩ := Laid.wellFormed
    (visited visit (some (low, high)) (earlier ++ [hit]) info) laid'
  refine ⟨visited visit (some (low, high)) (earlier ++ [hit]) info, events', ?_,
    wellFormed, rfl, ?_, fun event => ?_⟩
  · simp only [scanKey, found, bind, Except.bind]
    exact looped
  · rw [KeyInfo.timeline, nodes, KeyInfo.timeline, order, List.map_map]
    exact List.map_congr_left pubEq
  · rw [collected, KeyInfo.timeline, order]
    refine or_congr_right ⟨?_, ?_⟩
    · rintro ⟨node, member, rest⟩
      refine ⟨info.heap.pub node, List.mem_map_of_mem ?_, rest⟩
      simp only [List.mem_append, List.mem_cons, List.not_mem_nil, or_false] at member ⊢
      grind
    · rintro ⟨lock, member, isMet, rest⟩
      obtain ⟨node, inNodes, rfl⟩ := List.mem_map.1 member
      refine ⟨node, ?_, isMet, rest⟩
      have notLater : node ∉ later := fun isLater => by
        rw [laterNotMet node isLater] at isMet
        exact absurd isMet (by decide)
      simp only [List.mem_append, List.mem_cons, List.not_mem_nil, or_false]
        at inNodes ⊢
      grind

/-- What a visit to everything that a transaction has recorded does to the trees. -/
structure Scans (visit : Interval → Interval × Bool)
    (manager : AVLTreeLockManager) (tid : Nat)
    (manager' : AVLTreeLockManager) (events : Finset Nat) : Prop where
  trees : manager'.Trees
  timeline : ∀ key, manager'.timeline key =
    (manager.timeline key).map (released visit (manager.record tid key))
  eventsAt : ∀ key ts, manager'.eventsAt key ts = manager.eventsAt key ts
  record : ∀ other key, manager'.record other key =
    if other = tid then none else manager.record other key
  collected : ∀ event, event ∈ events ↔
    ∃ key, ∃ lock ∈ manager.timeline key,
      met (manager.record tid key) lock = true ∧ (visit lock).2 = true ∧
        event ∈ manager.eventsAt key lock.endTs

/-- The effect of a visit to everything that a transaction has recorded. -/
structure Released (visit : Interval → Interval × Bool)
    (manager : AVLTreeLockManager) (tid : Nat)
    (manager' : AVLTreeLockManager) (events : Finset Nat) : Prop where
  wellFormed : manager'.WellFormed
  timeline : ∀ key, manager'.timeline key =
    (manager.timeline key).map (released visit (manager.record tid key))
  eventsAt : ∀ key ts, manager'.eventsAt key ts = manager.eventsAt key ts
  record : ∀ other key, manager'.record other key =
    if other = tid then none else manager.record other key
  collected : ∀ event, event ∈ events ↔
    ∃ key, ∃ lock ∈ manager.timeline key,
      met (manager.record tid key) lock = true ∧ (visit lock).2 = true ∧
        event ∈ manager.eventsAt key lock.endTs

theorem Released.scans {manager manager' : AVLTreeLockManager} {tid : Nat} {events : Finset Nat}
    (release : Released visit manager tid manager' events) :
    Scans visit manager tid manager' events where
  trees := release.wellFormed.trees
  timeline := release.timeline
  eventsAt := release.eventsAt
  record := release.record
  collected := release.collected

theorem released_initialTimeline (lawful : LawfulVisit visit)
    (recorded : Option (Nat × Nat)) :
    initialTimeline.map (released visit recorded) = initialTimeline := by
  have idle : ∀ lock ∈ initialTimeline, released visit recorded lock = lock := by
    intro lock member
    have unlocked : lock.status ≠ .readLock ∧ lock.status ≠ .writeLock := by
      simp only [initialTimeline, List.mem_cons, List.not_mem_nil, or_false] at member
      rcases member with rfl | rfl <;> decide
    rw [released, lawful.idle lock unlocked.1 unlocked.2, ite_self]
  exact (List.map_congr_left idle).trans (List.map_id _)

/-- The loop over the keys which the transaction has recorded. -/
theorem scanKeys_eq
    {manager : AVLTreeLockManager}
    {intervals : Finmap fun _ : Nat => Nat × Nat}
    (lawful : LawfulVisit visit) (trees : manager.Trees)
    (ranges : ∀ key low high, intervals.lookup key = some (low, high) →
      manager.keyMap key ≠ none → 1 ≤ low ∧ high ≤ uintMax)
    (keys : List Nat) (nodup : keys.Nodup) (events : Finset Nat) :
    ∃ manager' events',
      scanKeys visit intervals keys manager events = .ok (manager', events') ∧
        manager'.Trees ∧
        manager'.transactionMap = manager.transactionMap ∧
        (∀ key, manager'.timeline key =
          if key ∈ keys then
            (manager.timeline key).map (released visit (intervals.lookup key))
          else manager.timeline key) ∧
        (∀ key ts, manager'.eventsAt key ts = manager.eventsAt key ts) ∧
        ∀ event, event ∈ events' ↔ event ∈ events ∨
          ∃ key ∈ keys, ∃ lock ∈ manager.timeline key,
            met (intervals.lookup key) lock = true ∧ (visit lock).2 = true ∧
              event ∈ manager.eventsAt key lock.endTs := by
  induction keys generalizing manager events with
  | nil => exact ⟨manager, events, rfl, trees, rfl, by simp, by simp, by simp⟩
  | cons key keys ih =>
      obtain ⟨fresh, nodup⟩ := List.nodup_cons.1 nodup
      -- One key, whether or not it is there to be scanned.
      have first : ∃ manager₁ events₁,
          scanKeys visit intervals (key :: keys) manager events =
            scanKeys visit intervals keys manager₁ events₁ ∧
          manager₁.Trees ∧ manager₁.transactionMap = manager.transactionMap ∧
          (∀ other, manager₁.keyMap other ≠ none → manager.keyMap other ≠ none) ∧
          (∀ other, manager₁.timeline other =
            if other = key then
              (manager.timeline key).map (released visit (intervals.lookup key))
            else manager.timeline other) ∧
          (∀ other ts, manager₁.eventsAt other ts = manager.eventsAt other ts) ∧
          ∀ event, event ∈ events₁ ↔ event ∈ events ∨
            ∃ lock ∈ manager.timeline key,
              met (intervals.lookup key) lock = true ∧ (visit lock).2 = true ∧
                event ∈ manager.eventsAt key lock.endTs := by
        cases present : manager.keyMap key with
        | none =>
            refine ⟨manager, events, by rw [scanKeys, present], trees, rfl, fun _ => id,
              fun other => ?_, fun _ _ => rfl, fun event => ?_⟩
            · split
              · next same =>
                  rw [same, timeline, present, released_initialTimeline lawful]
              · rfl
            · simp [eventsAt, present]
        | some info =>
            cases recorded : intervals.lookup key with
            | none =>
                refine ⟨manager, events, by rw [scanKeys, present, recorded], trees,
                  rfl, fun _ => id, fun other => ?_, fun _ _ => rfl, fun event => by simp [met]⟩
                split
                · next same =>
                    rw [same]
                    exact (List.map_id _).symm
                · rfl
            | some range =>
                obtain ⟨low, high⟩ := range
                obtain ⟨positive, bound⟩ := ranges key low high recorded (by simp [present])
                obtain ⟨info', events₁, scanned, wellFormed', sameEvents, timelineEq,
                  collected⟩ := scanKey_eq lawful (trees key info present)
                    positive bound events
                refine ⟨manager.setKeyInfo key info', events₁, ?_,
                  trees.setKeyInfo wellFormed', rfl, fun other => ?_, fun other => ?_,
                  fun other ts => ?_, fun event => ?_⟩
                · simp only [scanKeys, present, recorded, scanned, bind, Except.bind]
                · by_cases same : other = key <;> simp [setKeyInfo, same, present]
                · rw [timeline_setKeyInfo, timelineEq, timeline_eq present]
                · rw [eventsAt_setKeyInfo, sameEvents]
                  split
                  · next same => rw [same, eventsAt_eq present]
                  · rfl
                · rw [collected, timeline_eq present]
                  simp only [eventsAt_eq present]
      obtain ⟨manager₁, events₁, head, trees₁, sameMap, known₁, timeline₁, sameEvents,
        collected₁⟩ := first
      obtain ⟨manager', events', tail, trees', sameMap', timeline', sameEvents',
        collected'⟩ := ih trees₁ (fun other low high recorded known =>
          ranges other low high recorded (known₁ other known)) nodup events₁
      refine ⟨manager', events', head.trans tail, trees', sameMap'.trans sameMap,
        fun other => ?_, fun other ts => (sameEvents' other ts).trans (sameEvents other ts),
        fun event => ?_⟩
      · rw [timeline', timeline₁]
        by_cases same : other = key
        · subst same
          simp [fresh]
        · simp [same]
      · rw [collected', collected₁, or_assoc]
        refine or_congr_right ?_
        simp only [List.mem_cons, exists_eq_or_imp, sameEvents]
        refine or_congr_right (exists_congr fun other => and_congr_right fun member => ?_)
        have different : other ≠ key := by
          rintro rfl
          exact fresh member
        rw [timeline₁, if_neg different]

/-- `freeze` and `unlock` of a transaction whose ranges can be walked. -/
theorem release_scans
    {manager : AVLTreeLockManager} {tid : Nat}
    (lawful : LawfulVisit visit) (trees : manager.Trees)
    (ranges : ∀ key low high, manager.record tid key = some (low, high) →
      manager.keyMap key ≠ none → 1 ≤ low ∧ high ≤ uintMax) :
    ∃ manager' events,
      release visit manager tid = .ok (manager', events) ∧
        Scans visit manager tid manager' events := by
  unfold release
  cases known : manager.transactionMap tid with
  | none =>
      have noRecord : ∀ key, manager.record tid key = none := by simp [record, known]
      refine ⟨manager, ∅, rfl, trees, fun key => ?_, fun _ _ => rfl,
        fun other key => ?_, fun event => ?_⟩
      · rw [noRecord]
        exact (List.map_id _).symm
      · split
        · next same => rw [same, noRecord]
        · rfl
      · simp [noRecord, met]
  | some info =>
      have recordEq : ∀ key, manager.record tid key = info.intervals.lookup key := by
        simp [record, known]
      obtain ⟨manager', events, scanned, trees', sameMap, timeline', sameEvents,
        collected⟩ := scanKeys_eq lawful trees (fun key low high recorded =>
          ranges key low high (by rw [recordEq, recorded]))
          (ascending info.intervals.keys) (ascending_nodup _) ∅
      have keysIff : ∀ key, key ∈ ascending info.intervals.keys ↔
          manager.record tid key ≠ none := by
        intro key
        rw [mem_ascending, Finmap.mem_keys, recordEq, ne_eq, Finmap.lookup_eq_none,
          not_not]
      have recordAfter : ∀ other key,
          AVLTreeLockManager.record
              { manager' with
                transactionMap := Function.update manager'.transactionMap tid none }
              other key =
            if other = tid then none else manager.record other key := by
        intro other key
        by_cases same : other = tid
        · subst same
          simp [record]
        · simp [record, same, sameMap]
      refine ⟨{ manager' with
          transactionMap := Function.update manager'.transactionMap tid none },
        events, ?_, trees', fun key => ?_, sameEvents, recordAfter, fun event => ?_⟩
      · simp only [scanned, bind, Except.bind]
        rfl
      · refine (timeline' key).trans ?_
        rw [← recordEq]
        split
        · rfl
        · next absent =>
            rw [keysIff, not_not] at absent
            rw [absent]
            exact (List.map_id _).symm
      · rw [collected]
        simp only [Finset.notMem_empty, false_or, ← recordEq]
        refine exists_congr fun key => ?_
        rw [and_iff_right_iff_imp, keysIff]
        rintro ⟨lock, -, isMet, -⟩ absent
        rw [absent] at isMet
        exact absurd isMet (by simp [met])

/-- `freeze` and `unlock` return, and this is what they have done. -/
theorem release_eq
    {manager : AVLTreeLockManager}
    (lawful : LawfulVisit visit) (wellFormed : manager.WellFormed) (tid : Nat) :
    ∃ manager' events,
      release visit manager tid = .ok (manager', events) ∧
        Released visit manager tid manager' events := by
  obtain ⟨manager', events, returned, scans⟩ :=
    release_scans lawful wellFormed.trees fun key low high recorded _ =>
      wellFormed.records tid key low high recorded
  refine ⟨manager', events, returned, ⟨scans.trees, fun other key low high recorded => ?_⟩,
    scans.timeline, scans.eventsAt, scans.record, scans.collected⟩
  rw [scans.record] at recorded
  split at recorded
  · exact absurd recorded (by simp)
  · exact wellFormed.records other key low high recorded

/-- A scan down to the timestamp zero never ends. -/
theorem scanLoop_zero (visit : Interval → Interval × Bool) (fuel : Nat) (info : KeyInfo)
    (locks : List Address) (tsEnd : Nat) (events : Finset Nat)
    (result : KeyInfo × Finset Nat) :
    scanLoop visit 0 fuel info locks tsEnd events ≠ .ok result := by
  induction fuel generalizing info locks tsEnd events with
  | zero => simp [scanLoop]
  | succ fuel ih =>
      intro scanned
      rw [scanLoop, if_neg (Nat.not_lt_zero tsEnd)] at scanned
      simp only [bind, Except.bind] at scanned
      split at scanned
      · exact absurd scanned (by simp)
      · split at scanned
        · exact absurd scanned (by simp)
        · exact ih _ _ _ _ scanned

theorem scanKeys_positive {manager : AVLTreeLockManager}
    {intervals : Finmap fun _ : Nat => Nat × Nat} {keys : List Nat} {events : Finset Nat}
    {result : AVLTreeLockManager × Finset Nat}
    (scanned : scanKeys visit intervals keys manager events = .ok result) :
    ∀ key ∈ keys, ∀ low high, intervals.lookup key = some (low, high) →
      manager.keyMap key ≠ none → 1 ≤ low := by
  induction keys generalizing manager events with
  | nil => simp
  | cons key keys ih =>
      intro other member low high recorded known
      rw [scanKeys] at scanned
      split at scanned
      · next info range present recordedHere =>
          simp only [bind, Except.bind] at scanned
          split at scanned
          · exact absurd scanned (by simp)
          · next after scannedKey =>
              rcases List.mem_cons.1 member with rfl | later
              · obtain rfl : range = (low, high) := by
                  simpa [recordedHere] using recorded
                by_contra zero
                obtain rfl : low = 0 := by omega
                simp only [scanKey, bind, Except.bind] at scannedKey
                split at scannedKey
                · exact absurd scannedKey (by simp)
                · exact scanLoop_zero _ _ _ _ _ _ _ scannedKey
              · refine ih scanned other later low high recorded ?_
                simp only [setKeyInfo, Function.update_apply]
                split <;> simp [known]
      · next notBoth =>
          rcases List.mem_cons.1 member with rfl | later
          · obtain ⟨info, present⟩ := Option.ne_none_iff_exists'.1 known
            exact absurd recorded (notBoth info (low, high) present)
          · exact ih scanned other later low high recorded known

/--
If `freeze` or `unlock` returns at all, then what the transaction has recorded
can be walked.
-/
theorem release_ranges {manager manager' : AVLTreeLockManager} {tid : Nat}
    {events : Finset Nat} (returned : release visit manager tid = .ok (manager', events))
    {key low high : Nat} (recorded : manager.record tid key = some (low, high))
    (known : manager.keyMap key ≠ none) : 1 ≤ low := by
  unfold release at returned
  cases present : manager.transactionMap tid with
  | none => simp [record, present] at recorded
  | some info =>
      have lookup : info.intervals.lookup key = some (low, high) := by
        simpa [record, present] using recorded
      rw [present] at returned
      simp only [bind, Except.bind] at returned
      split at returned
      · exact absurd returned (by simp)
      · next scanned =>
          refine scanKeys_positive scanned key ?_ low high lookup known
          rw [mem_ascending, Finmap.mem_keys]
          exact Finmap.mem_of_lookup_eq_some lookup

/-! ## Faults of freeze and unlock -/

theorem bind_ne_error {α β ε : Type} {fault : ε} {first : Except ε α} {next : α → Except ε β}
    (safe : first ≠ .error fault)
    (rest : ∀ outcome, first = .ok outcome → next outcome ≠ .error fault) :
    first >>= next ≠ .error fault := by
  cases first with
  | error other => exact fun failed => safe (congrArg Except.error (Except.error.inj failed))
  | ok outcome => exact rest outcome rfl

theorem find_ne_exit (fuel : Nat) (heap : NodeHeap) (locks : List Address) (this : Address)
    (ts : Nat) : find fuel heap locks this ts ≠ .error .exit := by
  induction fuel generalizing locks this with
  | zero => simp [find]
  | succ fuel ih =>
      rw [find]
      split
      · split
        · simp
        · exact ih _ _
      · split
        · split
          · simp
          · exact ih _ _
        · simp

theorem scanLoop_ne_exit (tsStart fuel : Nat) (info : KeyInfo) (locks : List Address)
    (tsEnd : Nat) (events : Finset Nat) :
    scanLoop visit tsStart fuel info locks tsEnd events ≠ .error .exit := by
  induction fuel generalizing info locks tsEnd events with
  | zero => simp [scanLoop]
  | succ fuel ih =>
      rw [scanLoop]
      split
      · simp
      · refine bind_ne_error ?_ fun popped _ => ?_
        · cases locks <;> simp [pop]
        · exact bind_ne_error (find_ne_exit _ _ _ _ _) fun locks _ => ih _ _ _ _

theorem scanKeys_ne_exit {intervals : Finmap fun _ : Nat => Nat × Nat} (keys : List Nat)
    (manager : AVLTreeLockManager) (events : Finset Nat) :
    scanKeys visit intervals keys manager events ≠ .error .exit := by
  induction keys generalizing manager events with
  | nil => simp [scanKeys]
  | cons key keys ih =>
      rw [scanKeys]
      split
      · refine bind_ne_error ?_ fun outcome _ => ih _ _
        exact bind_ne_error (find_ne_exit _ _ _ _ _) fun locks _ => scanLoop_ne_exit _ _ _ _ _ _
      · exact ih _ _

/-- `freeze` and `unlock` do not call `exit` themselves. -/
theorem release_ne_exit (visit : Interval → Interval × Bool) (manager : AVLTreeLockManager)
    (tid : Nat) : release visit manager tid ≠ .error .exit := by
  unfold release
  split
  · simp
  · exact bind_ne_error (scanKeys_ne_exit _ _ _) fun outcome _ => by simp [pure, Except.pure]

/-- `freeze` returns, and this is what it has done. -/
theorem freeze_eq {manager : AVLTreeLockManager} (wellFormed : manager.WellFormed)
    (tid : Nat) :
    ∃ manager' events,
      manager.freeze tid = .ok (manager', events) ∧
        Released (freezeVisit tid) manager tid manager' events :=
  release_eq (lawfulVisit_freezeVisit tid) wellFormed tid

/-- `unlock` returns, and this is what it has done. -/
theorem unlock_eq {manager : AVLTreeLockManager} (wellFormed : manager.WellFormed)
    (tid : Nat) :
    ∃ manager' events,
      manager.unlock tid = .ok (manager', events) ∧
        Released (unlockVisit tid) manager tid manager' events :=
  release_eq (lawfulVisit_unlockVisit tid) wellFormed tid

end Mvtx.Lock
