import Mvtx.Lib.Ascending
import Mvtx.Lock.Node
import Mathlib.Data.Finmap

/-!
# AVLTreeLockManager

The lock manager keeps an interval tree for every key and, for every
transaction, the keys it has locked with the lowest and the highest timestamp
locked on each.  The nodes of a key's tree live in a heap of their own.

`std::map`s that are only looked up are functions to `Option`; the one that
is iterated, a transaction's intervals, is a `Finmap`.  An event is known by
its address.  The latches are left out here; the order in which they are
taken is the subject of `Threads`.
-/

namespace Mvtx.Lock

open Lib Lib.LinkedTree AVLTreeLockNode

/-- Information needed per key. -/
structure KeyInfo where
  /-- Events wait to be executed for this key. -/
  events : Nat → Option (Finset Nat)
  root : Address
  heap : NodeHeap

/-- Information needed per transaction. -/
structure TransactionInfo where
  /-- Keys along with the minimum and maximum time that was locked. -/
  intervals : Finmap fun _ : Nat => Nat × Nat

/-- The state of the lock manager. -/
structure AVLTreeLockManager where
  keyMap : Nat → Option KeyInfo
  transactionMap : Nat → Option TransactionInfo

/-- `back()` and `pop_back()` of a vector used as a stack. -/
def pop (locks : List Address) : Exec (Address × List Address) :=
  match locks with
  | [] => .error .emptyStack
  | lock :: locks => .ok (lock, locks)

namespace AVLTreeLockManager

/-- `AVLTreeLockManager()`. -/
def empty : AVLTreeLockManager where
  keyMap := fun _ => none
  transactionMap := fun _ => none

/-- The node `[0, 0]` at which every key starts. -/
def originInterval : Interval :=
  { initial with status := .freezeWriteLock, endTs := 0 }

/-- The node for the rest of time. -/
def futureInterval : Interval := { initial with startTs := 1 }

/-- The tree of a new key. -/
def newKeyInfo : Exec KeyInfo := do
  let heap : NodeHeap :=
    { pub := fun _ => initial
      links := fun _ => .detached
      size := 0
      errors := [] }
  let (heap, root) := heap.allocate originInterval
  let (heap, tempNode) := heap.allocate futureInterval
  let (heap, root) ← insert heap.fuel heap root tempNode
  return { events := fun _ => none, root := root, heap := heap }

/-- Construct the tree of a key, unless it exists. -/
def createKeyInfo (manager : AVLTreeLockManager) (key : Nat) :
    Exec AVLTreeLockManager :=
  match manager.keyMap key with
  | some _ => .ok manager
  | none => do
      let info ← newKeyInfo
      return { manager with keyMap := Function.update manager.keyMap key (some info) }

/-- Store the information of a key. -/
def setKeyInfo (manager : AVLTreeLockManager) (key : Nat) (info : KeyInfo) :
    AVLTreeLockManager :=
  { manager with keyMap := Function.update manager.keyMap key (some info) }

end AVLTreeLockManager

/-- Register an event under the end of an interval. -/
def KeyInfo.addEvent (info : KeyInfo) (tsEnd event : Nat) : KeyInfo :=
  { info with
    events := Function.update info.events tsEnd
      (some (insert event ((info.events tsEnd).getD ∅))) }

namespace AVLTreeLockManager

/-- Widen the interval that a transaction has recorded for a key. -/
def widen (recorded : Option (Nat × Nat)) (tsStart tsEnd : Nat) : Nat × Nat :=
  match recorded with
  | none => (tsStart, tsEnd)
  | some (low, high) =>
      (if tsStart < low then tsStart else low,
        if high < tsEnd then tsEnd else high)

/-- Record a lock for a transaction, whose record is created if needed. -/
def addTransactionLock (manager : AVLTreeLockManager)
    (tid key tsStart tsEnd : Nat) : AVLTreeLockManager :=
  let info := (manager.transactionMap tid).getD ⟨∅⟩
  let recorded := widen (info.intervals.lookup key) tsStart tsEnd
  { manager with
    transactionMap := Function.update manager.transactionMap tid
      (some ⟨info.intervals.insert key recorded⟩) }

/-! ## tryBackwardLock -/

/-- How the loop of `tryBackwardLock` ends. -/
inductive BackwardExit where
  /-- The walk met an interval which it cannot pass. -/
  | stopped
  /-- The stack ran empty. -/
  | exhausted
  /-- The interval on the stack does not contain the timestamp. -/
  | misplaced
  deriving DecidableEq, Repr

/-- Whether `tryBackwardLock` splits an interval at its end timestamp. -/
def splitsAt (isRead : Bool) (lock : Interval) (ts : Nat) : Bool :=
  (lock.status = .free || (lock.status = .readLock && isRead)) &&
    ts < lock.endTs

/--
The `switch` of `tryBackwardLock`: the new information of the key, the next
timestamp and the result.
-/
def backwardVisit (info : KeyInfo) (tid : Nat) (isRead : Bool) (event : Nat)
    (curLock : Address) (curTs : Nat) : KeyInfo × Nat × Bool :=
  let lock := info.heap.pub curLock
  let next := uintPred lock.startTs
  match lock.status with
  | .free =>
      ({ info with heap := info.heap.modifyPub curLock fun lock =>
          { lock with
            status := if isRead then .readLock else .writeLock
            tids := insert tid lock.tids } },
        next, true)
  | .readLock =>
      if isRead then
        ({ info with heap := info.heap.modifyPub curLock fun lock =>
            { lock with tids := insert tid lock.tids } },
          next, true)
      else
        (info.addEvent lock.endTs event, curTs, false)
  | .writeLock => (info.addEvent lock.endTs event, curTs, false)
  | .freezeReadLock => (info, if isRead then next else curTs, true)
  | .freezeWriteLock => (info, curTs, true)

/-- The loop of `tryBackwardLock`. -/
def backwardLoop (tid : Nat) (isRead : Bool) (event : Nat) :
    Nat → KeyInfo → List Address → Nat →
      Exec (KeyInfo × BackwardExit × Nat × Bool)
  | 0, _, _, _ => .error .divergence
  | _ + 1, info, [], curTs => .ok (info, .exhausted, curTs, true)
  | fuel + 1, info, curLock :: locks, curTs =>
      let lock := info.heap.pub curLock
      if curTs < lock.startTs ∨ lock.endTs < curTs then
        .ok (info, .misplaced, curTs, false)
      else
        let (info, curTs, res) := backwardVisit info tid isRead event curLock curTs
        if curTs ≠ uintPred lock.startTs then
          .ok (info, .stopped, curTs, res)
        else do
          let locks ← find info.heap.fuel info.heap locks curLock curTs
          backwardLoop tid isRead event fuel info locks curTs

/--
Find the interval of the timestamp and create a new entry above it if
necessary; the stack then has the interval on top.
-/
def backwardEntry (info : KeyInfo) (tsEnd : Nat) (isRead : Bool) :
    Exec (NodeHeap × Address × List Address) := do
  let locks ← find info.heap.fuel info.heap [] info.root tsEnd
  let (curLock, _) ← pop locks
  let lock := info.heap.pub curLock
  if splitsAt isRead lock tsEnd then
    let (heap, newLock) := info.heap.allocate { lock with startTs := uintSucc tsEnd }
    let heap := heap.modifyPub curLock ({ · with endTs := tsEnd })
    let (heap, root) ← insert heap.fuel heap curLock newLock
    let locks ← find heap.fuel heap [] root tsEnd
    return (heap, root, locks)
  else
    return (info.heap, info.root, locks)

/--
Roll backwards from a timestamp and lock everything down to a frozen write
lock or to a lock in the way, which registers the event.  The last argument
and the last result are the content of `*ts_start`.
-/
def tryBackwardLock (manager : AVLTreeLockManager) (key tid tsEnd : Nat)
    (isRead : Bool) (event tsStart : Nat) :
    Exec (AVLTreeLockManager × Bool × Nat) := do
  let manager ← manager.createKeyInfo key
  let info ← deref (manager.keyMap key)
  let (heap, root, locks) ← backwardEntry info tsEnd isRead
  let (info', exit, curTs, res) ← backwardLoop tid isRead event heap.fuel
    { info with heap := heap } locks tsEnd
  match exit with
  | .stopped =>
      let manager := manager.addTransactionLock tid key (uintSucc curTs) tsEnd
      return (manager.setKeyInfo key { info' with root := root }, res, uintSucc curTs)
  | .exhausted =>
      return (manager.setKeyInfo key { info' with root := root }, res, uintSucc curTs)
  | .misplaced =>
      -- Returns without storing the new root.
      return (manager.setKeyInfo key info', false, tsStart)

/-! ## tryLock -/

/-- Whether `tryLock` can pass an interval, and then whether it locks it. -/
def searchVisit (isRead : Bool) (lock : Interval) : Option Bool :=
  match lock.status with
  | .free => some true
  | .readLock => if isRead then some true else none
  | .writeLock => none
  | .freezeReadLock => if isRead then some false else none
  | .freezeWriteLock => none

/-- The search loop of `tryLock`: the intervals to lock, or none. -/
def searchLoop (heap : NodeHeap) (tsStart : Nat) (isRead : Bool) :
    Nat → List Address → List Address → Exec (Option (List Address))
  | 0, _, _ => .error .divergence
  | _ + 1, [], pendLocks => .ok (some pendLocks)
  | fuel + 1, curLock :: locks, pendLocks =>
      let lock := heap.pub curLock
      match searchVisit isRead lock with
      | none => .ok none
      | some pends => do
          let pendLocks := if pends then pendLocks ++ [curLock] else pendLocks
          let locks ←
            if tsStart < lock.startTs then
              find heap.fuel heap locks curLock (uintPred tsStart)
            else
              pure []
          searchLoop heap tsStart isRead fuel locks pendLocks

/-- Cut off what an interval has below the range. -/
def cutBelow (heap : NodeHeap) (root : Address) (tsStart : Nat) (node : Address) :
    Exec (NodeHeap × Address) :=
  if (heap.pub node).startTs < tsStart then
    let (heap, newLock) :=
      heap.allocate { heap.pub node with endTs := uintPred tsStart }
    let heap := heap.modifyPub node ({ · with startTs := tsStart })
    insert heap.fuel heap node newLock
  else
    .ok (heap, root)

/-- Cut off what an interval has above the range. -/
def cutAbove (heap : NodeHeap) (root : Address) (tsEnd : Nat) (node : Address) :
    Exec (NodeHeap × Address) :=
  if tsEnd < (heap.pub node).endTs then
    let (heap, newLock) :=
      heap.allocate { heap.pub node with startTs := uintSucc tsEnd }
    let heap := heap.modifyPub node ({ · with endTs := tsEnd })
    insert heap.fuel heap node newLock
  else
    .ok (heap, root)

/-- Lock one interval, after cutting off what lies outside the range. -/
def lockNode (heap : NodeHeap) (root : Address) (tid tsStart tsEnd : Nat)
    (isRead : Bool) (node : Address) : Exec (NodeHeap × Address) := do
  let (heap, root) ← cutBelow heap root tsStart node
  let (heap, root) ← cutAbove heap root tsEnd node
  return (heap.modifyPub node fun lock =>
    { lock with
      status := if isRead then .readLock else .writeLock
      tids := insert tid lock.tids }, root)

/-- Lock all the intervals that the search found. -/
def lockNodes (tid tsStart tsEnd : Nat) (isRead : Bool) :
    List Address → NodeHeap → Address → Exec (NodeHeap × Address)
  | [], heap, root => .ok (heap, root)
  | node :: nodes, heap, root => do
      let (heap, root) ← lockNode heap root tid tsStart tsEnd isRead node
      lockNodes tid tsStart tsEnd isRead nodes heap root

/-- Try to get a lock for a specific interval. -/
def tryLock (manager : AVLTreeLockManager) (key tid tsStart tsEnd : Nat)
    (isRead : Bool) : Exec (AVLTreeLockManager × Bool) := do
  let manager ← manager.createKeyInfo key
  let info ← deref (manager.keyMap key)
  let locks ← find info.heap.fuel info.heap [] info.root tsEnd
  match ← searchLoop info.heap tsStart isRead info.heap.fuel locks [] with
  | none => return (manager, false)
  | some pendLocks =>
      let (heap, root) ←
        lockNodes tid tsStart tsEnd isRead pendLocks info.heap info.root
      let manager := manager.addTransactionLock tid key tsStart tsEnd
      return (manager.setKeyInfo key { info with heap := heap, root := root }, true)

/-! ## freeze and unlock -/

/-- The `switch` of `freeze`, and whether the events of the interval are collected. -/
def freezeVisit (tid : Nat) (lock : Interval) : Interval × Bool :=
  match lock.status with
  | .readLock =>
      if tid ∈ lock.tids then
        ({ lock with status := .freezeReadLock, tids := ∅ }, true)
      else (lock, false)
  | .writeLock =>
      if tid ∈ lock.tids then
        ({ lock with status := .freezeWriteLock, tids := ∅ }, true)
      else (lock, false)
  | _ => (lock, false)

/-- The `switch` of `unlock`, and whether the events of the interval are collected. -/
def unlockVisit (tid : Nat) (lock : Interval) : Interval × Bool :=
  match lock.status with
  | .readLock =>
      if tid ∈ lock.tids then
        let tids := lock.tids.erase tid
        ({ lock with status := .free, tids := tids }, tids = ∅)
      else (lock, false)
  | .writeLock =>
      if tid ∈ lock.tids then
        ({ lock with status := .free, tids := lock.tids.erase tid }, true)
      else (lock, false)
  | _ => (lock, false)

/-- The loop which `freeze` and `unlock` run over one key, from the end backwards. -/
def scanLoop (visit : Interval → Interval × Bool) (tsStart : Nat) :
    Nat → KeyInfo → List Address → Nat → Finset Nat → Exec (KeyInfo × Finset Nat)
  | 0, _, _, _, _ => .error .divergence
  | fuel + 1, info, locks, tsEnd, events =>
      if tsEnd < tsStart then
        .ok (info, events)
      else do
        let (curLock, locks) ← pop locks
        let lock := info.heap.pub curLock
        let (changed, collects) := visit lock
        let info := { info with heap := info.heap.modifyPub curLock fun _ => changed }
        let events :=
          if collects then events ∪ (info.events lock.endTs).getD ∅ else events
        let tsEnd := uintPred lock.startTs
        let locks ← find info.heap.fuel info.heap locks curLock tsEnd
        scanLoop visit tsStart fuel info locks tsEnd events

/-- What `freeze` and `unlock` do on one key that a transaction has recorded. -/
def scanKey (visit : Interval → Interval × Bool) (recorded : Nat × Nat)
    (info : KeyInfo) (events : Finset Nat) : Exec (KeyInfo × Finset Nat) := do
  let locks ← find info.heap.fuel info.heap [] info.root recorded.2
  scanLoop visit recorded.1 info.heap.fuel info locks recorded.2 events

/-- Visit the keys that a transaction has recorded, in order. -/
def scanKeys (visit : Interval → Interval × Bool)
    (intervals : Finmap fun _ : Nat => Nat × Nat) :
    List Nat → AVLTreeLockManager → Finset Nat →
      Exec (AVLTreeLockManager × Finset Nat)
  | [], manager, events => .ok (manager, events)
  | key :: keys, manager, events =>
      match manager.keyMap key, intervals.lookup key with
      | some info, some recorded => do
          let (info, events) ← scanKey visit recorded info events
          scanKeys visit intervals keys (manager.setKeyInfo key info) events
      | _, _ => scanKeys visit intervals keys manager events

/--
What `freeze` and `unlock` share: visit everything the transaction has
recorded, forget the transaction, and hand back the events to run.
-/
def release (visit : Interval → Interval × Bool)
    (manager : AVLTreeLockManager) (tid : Nat) :
    Exec (AVLTreeLockManager × Finset Nat) :=
  match manager.transactionMap tid with
  | none => .ok (manager, ∅)
  | some info => do
      let (manager, events) ← scanKeys visit info.intervals
        (ascending info.intervals.keys) manager ∅
      return ({ manager with
        transactionMap := Function.update manager.transactionMap tid none }, events)

/--
Freeze all the locks of a transaction.  The source goes on to run the events;
here they are handed to the caller, which runs them in ascending order.
-/
def freeze (manager : AVLTreeLockManager) (tid : Nat) :
    Exec (AVLTreeLockManager × Finset Nat) :=
  release (freezeVisit tid) manager tid

/-- Unlock all the locks of a transaction, with the events to run. -/
def unlock (manager : AVLTreeLockManager) (tid : Nat) :
    Exec (AVLTreeLockManager × Finset Nat) :=
  release (unlockVisit tid) manager tid

end AVLTreeLockManager

end Mvtx.Lock
