import Mathlib.Data.Finset.Basic
import Mathlib.Tactic.Common

/-!
# Words, faults and lock statuses

Timestamps, keys, transaction IDs and nodes are `uint64_t` in the source.
They are natural numbers here, and the two places where the source relies on
unsigned arithmetic, `x - 1` and `x + 1`, wrap explicitly.

A run of the program that dereferences a null pointer, takes the back of an
empty vector, calls `exit`, locks a mutex it already holds or recurses past
its bound ends in a `Fault`.
-/

namespace Mvtx

/-- `UINTMAX_MAX`. -/
def uintMax : Nat := 18446744073709551615

/-- `x - 1` on `uint64_t`. -/
def uintPred (x : Nat) : Nat := if x = 0 then uintMax else x - 1

/-- `x + 1` on `uint64_t`. -/
def uintSucc (x : Nat) : Nat := if x = uintMax then 0 else x + 1

theorem uintPred_eq {x : Nat} (positive : 1 ≤ x) : uintPred x = x - 1 :=
  if_neg (Nat.ne_of_gt positive)

theorem uintSucc_eq {x : Nat} (bound : x < uintMax) :
    uintSucc x = x + 1 :=
  if_neg (Nat.ne_of_lt bound)

/-- The ways in which a run of the program can stop short. -/
inductive Fault where
  /-- A null or unset pointer was dereferenced. -/
  | nullDereference
  /-- `back()` or `*begin()` of an empty vector. -/
  | emptyStack
  /-- The program called `exit`. -/
  | exit
  /-- A thread locked a mutex which it holds. -/
  | selfDeadlock
  /-- A loop or a recursion went past its bound. -/
  | divergence
  deriving DecidableEq, Repr

/-- A computation that returns or faults. -/
abbrev Exec (α : Type) := Except Fault α

/-- Follow a pointer that must not be null. -/
def deref {α : Type} : Option α → Exec α
  | none => .error .nullDereference
  | some value => .ok value

/-- Lock status for LockManager lock. -/
inductive LockStatus where
  /-- No lock. -/
  | free
  /-- Read lock that might be unlocked or frozen. -/
  | readLock
  /-- Write lock that might be unlocked or frozen. -/
  | writeLock
  /-- Frozen read lock that cannot change status. -/
  | freezeReadLock
  /-- Frozen write lock that cannot change status. -/
  | freezeWriteLock
  deriving DecidableEq, Repr

/-- Whether a status is one of the two which must not change any more. -/
def LockStatus.frozen : LockStatus → Bool
  | .freezeReadLock | .freezeWriteLock => true
  | _ => false

/-- Whether a status is that of a lock which somebody will give up. -/
def LockStatus.held : LockStatus → Bool
  | .readLock | .writeLock => true
  | .free | .freezeReadLock | .freezeWriteLock => false

/-- The statuses which `tryBackwardLock` walks past. -/
def LockStatus.passes (isRead : Bool) : LockStatus → Bool
  | .free => true
  | .readLock | .freezeReadLock => isRead
  | .writeLock | .freezeWriteLock => false

/-- The statuses at which `tryBackwardLock` leaves its event behind. -/
def LockStatus.waits (isRead : Bool) : LockStatus → Bool
  | .readLock => !isRead
  | .writeLock => true
  | .free | .freezeReadLock | .freezeWriteLock => false

/-- The statuses at which a scan backwards must stop. -/
def LockStatus.Stops (isRead : Bool) (status : LockStatus) : Prop :=
  if isRead then status = .writeLock ∨ status = .freezeWriteLock else status ≠ .free

/-- The statuses which a lock operation can take over. -/
def LockStatus.Lockable (isRead : Bool) (status : LockStatus) : Prop :=
  status = .free ∨ status = .readLock ∧ isRead = true

instance (isRead : Bool) (status : LockStatus) : Decidable (status.Lockable isRead) :=
  inferInstanceAs (Decidable (_ ∨ _))

/-- The status that a lock operation gives. -/
def lockMode (isRead : Bool) : LockStatus :=
  if isRead then .readLock else .writeLock

theorem LockStatus.stops_iff {isRead : Bool} {status : LockStatus} :
    status.Stops isRead ↔ status.passes isRead = false := by
  cases status <;> cases isRead <;> simp [LockStatus.Stops, LockStatus.passes]

/-- A scan that has to stop leaves its event behind unless the status is frozen. -/
theorem LockStatus.waits_eq_not_frozen {isRead : Bool} {status : LockStatus}
    (stops : status.passes isRead = false) : status.waits isRead = !status.frozen := by
  cases status <;> cases isRead <;>
    simp_all [LockStatus.passes, LockStatus.waits, LockStatus.frozen]

end Mvtx
