import Mvtx.Lib.LinkedTree
import Mvtx.Lock.Basic

/-!
# AVLTreeLockNode

The nodes of one key's interval tree.  The public fields of a node (status,
interval and holders) and its private fields (links and stored heights) are
kept in two maps from addresses, so that the rotations, which only touch the
private part, visibly leave the intervals alone.

Recursion along pointers is bounded by the number of allocated nodes.  No
walk along the links of a tree is longer; a walk that is ends in a fault.
-/

namespace Mvtx.Lock

open Lib.LinkedTree

/-- The public fields of a node. -/
structure Interval where
  status : LockStatus
  /-- `_start`. -/
  startTs : Nat
  /-- `_end`. -/
  endTs : Nat
  /-- The transactions that keep a lock on the interval. -/
  tids : Finset Nat
  deriving DecidableEq

/-- The timestamp lies in the interval. -/
def Interval.Covers (interval : Interval) (ts : Nat) : Prop :=
  interval.startTs ≤ ts ∧ ts ≤ interval.endTs

instance (interval : Interval) (ts : Nat) : Decidable (interval.Covers ts) :=
  inferInstanceAs (Decidable (_ ∧ _))

/-- The messages of the two error branches of the tree. -/
inductive NodeError where
  /-- `swap` of a child that is null. -/
  | swapOfNull (isLeft : Bool)
  /-- `balance` of a node whose higher child is itself out of balance. -/
  | balanceFactor (factor : Int)
  deriving DecidableEq, Repr

/-- The nodes allocated for one key. -/
structure NodeHeap where
  pub : Address → Interval
  links : LinkMap
  /-- The addresses below `size` are allocated. -/
  size : Nat
  /-- Errors printed by the tree, latest first. -/
  errors : List NodeError

namespace NodeHeap

/-- A bound on every walk along the links of a tree. -/
def fuel (heap : NodeHeap) : Nat := heap.size + 1

/-- Change the public fields of one node. -/
def modifyPub (heap : NodeHeap) (address : Address)
    (change : Interval → Interval) : NodeHeap :=
  { heap with pub := Function.update heap.pub address (change (heap.pub address)) }

/-- Change the links of one node. -/
def modifyLinks (heap : NodeHeap) (address : Address)
    (change : Links → Links) : NodeHeap :=
  { heap with links := heap.links.modify address change }

/-- Construct a node that is in no tree. -/
def allocate (heap : NodeHeap) (interval : Interval) : NodeHeap × Address :=
  ({ heap with
      pub := Function.update heap.pub heap.size interval
      links := Function.update heap.links heap.size .detached
      size := heap.size + 1 },
    heap.size)

end NodeHeap

namespace AVLTreeLockNode

/-- The fields of `AVLTreeLockNode()`: all of time, free. -/
def initial : Interval where
  status := .free
  startTs := 0
  endTs := uintMax
  tids := ∅

/-- The root above a node. -/
def getRoot : Nat → NodeHeap → Address → Exec Address
  | 0, _, _ => .error .divergence
  | fuel + 1, heap, this =>
      match (heap.links this).parent with
      | some parent => getRoot fuel heap parent
      | none => .ok this

/-- The height of a child as the child's stored heights give it. -/
def childHeight (links : LinkMap) : Option Address → Nat
  | none => 0
  | some child =>
      if (links child).rightHeight ≤ (links child).leftHeight then
        (links child).leftHeight + 1
      else
        (links child).rightHeight + 1

/-- Update the two heights stored at a node. -/
def updateHeight (links : LinkMap) (this : Address) : LinkMap :=
  links.modify this fun node =>
    { node with
      leftHeight := childHeight links node.left
      rightHeight := childHeight links node.right }

/-- Let the parent of a node, if there is one, point to another child. -/
def replaceChild (links : LinkMap) (parent : Option Address)
    (this child : Address) : LinkMap :=
  match parent with
  | none => links
  | some parent =>
      if (links parent).left = some this then
        links.modify parent ({ · with left := some child })
      else
        links.modify parent ({ · with right := some child })

/-- Set the parent of a node, if the pointer to it is not null. -/
def setParent (links : LinkMap) (node : Option Address) (parent : Address) :
    LinkMap :=
  match node with
  | none => links
  | some node => links.modify node ({ · with parent := some parent })

/-- The pointer changes of `swap`, once the child is known not to be null. -/
def relink (links : LinkMap) (this child : Address) (isLeft : Bool) : LinkMap :=
  let parent := (links this).parent
  let links := links.modify child ({ · with parent := parent })
  let links := replaceChild links parent this child
  let links := links.modify this ({ · with parent := some child })
  if isLeft then
    let moved := (links child).right
    let links := links.modify this ({ · with left := moved })
    let links := setParent links moved this
    links.modify child ({ · with right := some this })
  else
    let moved := (links child).left
    let links := links.modify this ({ · with right := moved })
    let links := setParent links moved this
    links.modify child ({ · with left := some this })

/-- Swap a node with one of its children. -/
def swap (heap : NodeHeap) (this : Address) (isLeft : Bool) : NodeHeap :=
  let child :=
    if isLeft then (heap.links this).left else (heap.links this).right
  match child with
  | none => { heap with errors := .swapOfNull isLeft :: heap.errors }
  | some child =>
      let links := relink heap.links this child isLeft
      { heap with links := updateHeight (updateHeight links this) child }

/-- `_right_height - _left_height`. -/
def balanceFactor (heap : NodeHeap) (this : Address) : Int :=
  (heap.links this).rightHeight - (heap.links this).leftHeight

/--
The rotations of `balance` at one node whose heights are up to date.  The
result is false in the two error branches, which return without going on to
the parent.
-/
def restore (heap : NodeHeap) (this : Address) : Exec (NodeHeap × Bool) :=
  let diff := balanceFactor heap this
  if diff < -1 then do
    let left ← deref (heap.links this).left
    let factor := balanceFactor heap left
    if factor = 1 then
      return (swap (swap heap left false) this true, true)
    else if factor < -1 then
      return ({ heap with errors := .balanceFactor factor :: heap.errors }, false)
    else
      return (swap heap this true, true)
  else if 1 < diff then do
    let right ← deref (heap.links this).right
    let factor := balanceFactor heap right
    if factor = -1 then
      return (swap (swap heap right true) this false, true)
    else if 1 < factor then
      return ({ heap with errors := .balanceFactor factor :: heap.errors }, false)
    else
      return (swap heap this false, true)
  else
    return (heap, true)

/-- Balance a node and then the nodes above it. -/
def balance : Nat → NodeHeap → Address → Exec NodeHeap
  | 0, _, _ => .error .divergence
  | fuel + 1, heap, this => do
      let parent := (heap.links this).parent
      let (heap, restored) ←
        restore { heap with links := updateHeight heap.links this } this
      match restored, parent with
      | true, some parent => balance fuel heap parent
      | _, _ => return heap

/--
Push the nodes on the way to a timestamp which start below it.  The vector
of the source is a stack, its back at the head.
-/
def find : Nat → NodeHeap → List Address → Address → Nat → Exec (List Address)
  | 0, _, _, _, _ => .error .divergence
  | fuel + 1, heap, locks, this, ts =>
      if ts < (heap.pub this).startTs then
        match (heap.links this).left with
        | none => .ok locks
        | some left => find fuel heap locks left ts
      else if (heap.pub this).endTs < ts then
        match (heap.links this).right with
        | none => .ok locks
        | some right => find fuel heap (this :: locks) right ts
      else
        .ok (this :: locks)

/-- Insert a node below another one; the result is the root of the tree. -/
def insert : Nat → NodeHeap → Address → Address → Exec (NodeHeap × Address)
  | 0, _, _, _ => .error .divergence
  | fuel + 1, heap, this, newLock =>
      let attach (heap : NodeHeap) : Exec (NodeHeap × Address) := do
        let heap := heap.modifyLinks newLock ({ · with parent := some this })
        let heap ← balance heap.fuel heap this
        let root ← getRoot heap.fuel heap this
        return (heap, root)
      if (heap.pub newLock).startTs < (heap.pub this).startTs then
        match (heap.links this).left with
        | none => attach (heap.modifyLinks this ({ · with left := some newLock }))
        | some left => insert fuel heap left newLock
      else
        match (heap.links this).right with
        | none => attach (heap.modifyLinks this ({ · with right := some newLock }))
        | some right => insert fuel heap right newLock

end AVLTreeLockNode

end Mvtx.Lock
