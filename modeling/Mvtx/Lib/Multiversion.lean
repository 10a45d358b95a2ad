import Mathlib.Data.Finset.Basic
import Mathlib.Data.Set.Basic
import Mathlib.Logic.Relation
import Mathlib.Order.BoundedOrder.Basic
import Mvtx.Lib.Serial

/-!
# Multiversion timestamp ordering

Transactions run at the points of a time.  Each has a start; it reads the
versions before its start and writes versions at its start.  A reader claims all
points between the version that it has read and its start, so that nobody can
write there afterwards; a writer claims its start for every key that it has
written, and installs its versions once it has all of them.

The protocol says nothing of where claims are kept, of how a reader finds a
version, or of whom it waits for.  Whatever transactions do under it, the ones
that are decided have a serial history in the order of their starts.  Starts may
coincide; such transactions do not see each other's versions, and only some
orders of them will do, or none.
-/

namespace Mvtx.Lib.Multiversion

open Serial

/-! ## Claims -/

/-- What is claimed of a key at a point. -/
inductive Claim (Txn : Type*) where
  | free
  | reading (readers : Finset Txn)
  | writing (writer : Txn)
  /-- Claimed for good by a reader. -/
  | read
  /-- A version is installed. -/
  | written

namespace Claim

variable {Txn : Type*}

/-- A reader can claim the point as well, or need not. -/
def Passes : Claim Txn → Prop
  | .free | .reading _ | .read => True
  | .writing _ | .written => False

/-- The point is kept for a reader. -/
def Guards (txn : Txn) : Claim Txn → Prop
  | .reading readers => txn ∈ readers
  | .read => True
  | .free | .writing _ | .written => False

variable [DecidableEq Txn]

/-- A reader claims the point. -/
def share (txn : Txn) : Claim Txn → Claim Txn
  | .free => .reading {txn}
  | .reading readers => .reading (insert txn readers)
  | .writing writer => .writing writer
  | .read => .read
  | .written => .written

/-- A writer claims the point, if nobody has. -/
def reserve (txn : Txn) : Claim Txn → Claim Txn
  | .free => .writing txn
  | .reading readers => .reading readers
  | .writing writer => .writing writer
  | .read => .read
  | .written => .written

/-- The claims of a transaction are made for good. -/
def freeze (txn : Txn) : Claim Txn → Claim Txn
  | .reading readers => if txn ∈ readers then .read else .reading readers
  | .writing writer => if writer = txn then .written else .writing writer
  | .free => .free
  | .read => .read
  | .written => .written

/-- A transaction gives its claims up. -/
def release (txn : Txn) : Claim Txn → Claim Txn
  | .reading readers =>
      if txn ∈ readers then
        if readers.erase txn = ∅ then .free else .reading (readers.erase txn)
      else .reading readers
  | .writing writer => if writer = txn then .free else .writing writer
  | .free => .free
  | .read => .read
  | .written => .written

variable {txn other : Txn} {claim : Claim Txn}

theorem guards_share_self (passes : claim.Passes) : (claim.share txn).Guards txn := by
  cases claim <;> simp_all [share, Guards, Passes]

theorem guards_share (guards : claim.Guards other) : (claim.share txn).Guards other := by
  cases claim <;> simp_all [share, Guards]

theorem guards_freeze (guards : claim.Guards other) : (claim.freeze txn).Guards other := by
  cases claim with
  | reading readers =>
      by_cases holds : txn ∈ readers <;> simp_all [freeze, Guards]
  | free | writing | written => exact absurd guards id
  | read => trivial

theorem guards_release (guards : claim.Guards other) (differs : other ≠ txn) :
    (claim.release txn).Guards other := by
  cases claim with
  | reading readers =>
      have remains : other ∈ readers.erase txn := Finset.mem_erase.2 ⟨differs, guards⟩
      by_cases holds : txn ∈ readers
      · simpa [release, holds, Finset.ne_empty_of_mem remains, Guards] using ⟨differs, guards⟩
      · simpa [release, holds] using guards
  | free | writing | written => exact absurd guards id
  | read => trivial

@[simp]
theorem share_eq_writing : claim.share txn = .writing other ↔ claim = .writing other := by
  cases claim <;> simp [share]

@[simp]
theorem share_eq_written : claim.share txn = .written ↔ claim = .written := by
  cases claim <;> simp [share]

theorem freeze_eq_writing :
    claim.freeze txn = .writing other ↔ claim = .writing other ∧ other ≠ txn := by
  cases claim with
  | writing writer =>
      by_cases same : writer = txn
      · simp_all [freeze, eq_comm]
      · simp only [freeze, if_neg same, writing.injEq]
        exact ⟨fun is => ⟨is, is ▸ same⟩, And.left⟩
  | reading readers => by_cases holds : txn ∈ readers <;> simp_all [freeze]
  | free | read | written => simp [freeze]

theorem freeze_eq_written :
    claim.freeze txn = .written ↔ claim = .written ∨ claim = .writing txn := by
  cases claim with
  | writing writer => by_cases same : writer = txn <;> simp_all [freeze]
  | reading readers => by_cases holds : txn ∈ readers <;> simp_all [freeze]
  | free | read | written => simp [freeze]

theorem release_eq_writing :
    claim.release txn = .writing other ↔ claim = .writing other ∧ other ≠ txn := by
  cases claim with
  | writing writer =>
      by_cases same : writer = txn
      · simp_all [release, eq_comm]
      · simp only [release, if_neg same, writing.injEq]
        exact ⟨fun is => ⟨is, is ▸ same⟩, And.left⟩
  | reading readers =>
      by_cases holds : txn ∈ readers <;> by_cases last : readers.erase txn = ∅ <;>
        simp_all [release]
  | free | read | written => simp [release]

theorem release_eq_written : claim.release txn = .written ↔ claim = .written := by
  cases claim with
  | writing writer => by_cases same : writer = txn <;> simp_all [release]
  | reading readers =>
      by_cases holds : txn ∈ readers <;> by_cases last : readers.erase txn = ∅ <;>
        simp_all [release]
  | free | read | written => simp [release]

end Claim

/-- Change the claims of a key at some points. -/
def changeAt {Txn Key Time : Type*} [DecidableEq Key] (claims : Key → Time → Claim Txn)
    (key : Key) (range : Set Time) [DecidablePred (· ∈ range)]
    (change : Claim Txn → Claim Txn) : Key → Time → Claim Txn :=
  fun other time =>
    if other = key ∧ time ∈ range then change (claims other time) else claims other time

/-! ## The protocol -/

/-- How far a transaction has got. -/
inductive Phase where
  | active
  /-- It has all claims that it needs. -/
  | decided
  | installed
  | dropped
  deriving DecidableEq

/-- What is known of a transaction. -/
structure Record (Key Time Value : Type*) where
  start : Time
  log : List (Entry Key Value)
  /-- The points of every key that it has claimed as a reader, or found claimed for good. -/
  guarded : Key → Set Time
  phase : Phase

/-- The claims, the versions and the transactions. -/
structure State (Txn Key Time Value : Type*) where
  claims : Key → Time → Claim Txn
  versions : Key → Time → Option Value
  records : Txn → Option (Record Key Time Value)

variable {Txn Key Time Value : Type*}

/-- A transaction that has just begun. -/
def Record.new (start : Time) : Record Key Time Value where
  start := start
  log := []
  guarded := fun _ => ∅
  phase := .active

/-- A transaction that has done one thing more. -/
def Record.append (record : Record Key Time Value) (entry : Entry Key Value) :
    Record Key Time Value :=
  { record with log := record.log ++ [entry] }

/-- What a transaction has done. -/
def State.log (state : State Txn Key Time Value) (txn : Txn) : List (Entry Key Value) :=
  (state.records txn).elim [] Record.log

theorem State.log_eq {state : State Txn Key Time Value} {txn : Txn}
    {record : Record Key Time Value} (present : state.records txn = some record) :
    state.log txn = record.log := by
  simp [State.log, present]

section Protocol

variable [DecidableEq Txn]

namespace State

/-- Store what is known of a transaction. -/
def put (state : State Txn Key Time Value) (txn : Txn) (record : Record Key Time Value) :
    State Txn Key Time Value :=
  { state with records := Function.update state.records txn (some record) }

section Put

variable {state : State Txn Key Time Value} {txn other : Txn}
  {record record' : Record Key Time Value}

@[simp]
theorem put_claims : (state.put txn record).claims = state.claims := rfl

@[simp]
theorem put_versions : (state.put txn record).versions = state.versions := rfl

@[simp]
theorem put_self : (state.put txn record).records txn = some record :=
  Function.update_self ..

theorem put_of_ne (here : state.records other = some record') (differs : other ≠ txn) :
    (state.put txn record).records other = some record' :=
  (Function.update_of_ne differs ..).trans here

theorem put_cases (here : (state.put txn record).records other = some record') :
    other = txn ∧ record' = record ∨ other ≠ txn ∧ state.records other = some record' := by
  by_cases same : other = txn
  · subst same
    exact .inl ⟨rfl, by simpa using here.symm⟩
  · exact .inr ⟨same, by simpa [put, same] using here⟩

end Put

variable [DecidableEq Key] [LinearOrder Time]

/-- A reader claims some points of a key. -/
def scan (state : State Txn Key Time Value) (txn : Txn) (record : Record Key Time Value)
    (key : Key) (range : Set Time) [DecidablePred (· ∈ range)] : State Txn Key Time Value :=
  { state with claims := changeAt state.claims key range (.share txn) }.put txn
    { record with
      guarded := Function.update record.guarded key (record.guarded key ∪ range) }

/-- A writer claims its start. -/
def lock (state : State Txn Key Time Value) (txn : Txn) (key : Key) (start : Time) :
    State Txn Key Time Value :=
  { state with claims := changeAt state.claims key {start} (.reserve txn) }

/-- A transaction is decided. -/
def decide (state : State Txn Key Time Value) (txn : Txn) (record : Record Key Time Value) :
    State Txn Key Time Value :=
  state.put txn { record with phase := .decided }

/-- The versions of a transaction are installed. -/
def install (state : State Txn Key Time Value) (txn : Txn) (record : Record Key Time Value) :
    State Txn Key Time Value :=
  { state with
    claims := fun key time => (state.claims key time).freeze txn
    versions := fun key time =>
      if time = record.start then (lastWritten record.log key).or (state.versions key time)
      else state.versions key time }.put txn { record with phase := .installed }

/-- A transaction gives up. -/
def drop (state : State Txn Key Time Value) (txn : Txn) (record : Record Key Time Value) :
    State Txn Key Time Value :=
  { state with
    claims := fun key time => (state.claims key time).release txn }.put txn
    { record with phase := .dropped }

end State

variable [DecidableEq Key] [LinearOrder Time] [OrderBot Time]

/-- The first state: every key has its contents as a version from the beginning. -/
def State.initial (contents : Key → Value) : State Txn Key Time Value where
  claims := fun _ time => if time = ⊥ then .written else .free
  versions := fun key time => if time = ⊥ then some (contents key) else none
  records := fun _ => none

/-- What transactions may do. -/
inductive Step (state : State Txn Key Time Value) : State Txn Key Time Value → Prop where
  | begin
      {txn : Txn}
      {start : Time}
      (new : state.records txn = none)
      (later : ⊥ < start) :
      Step state (state.put txn (.new start))
  | write
      {txn : Txn}
      {record : Record Key Time Value}
      (present : state.records txn = some record)
      (active : record.phase = .active)
      (key : Key)
      (value : Value) :
      Step state (state.put txn (record.append (.write key value)))
  /-- A transaction reads what it has written itself. -/
  | readOwn
      {txn : Txn}
      {record : Record Key Time Value}
      {key : Key}
      {value : Value}
      (present : state.records txn = some record)
      (active : record.phase = .active)
      (own : lastWritten record.log key = some value) :
      Step state (state.put txn (record.append (.read key value)))
  | scan
      {txn : Txn}
      {record : Record Key Time Value}
      {key : Key}
      {range : Set Time}
      [DecidablePred (· ∈ range)]
      (present : state.records txn = some record)
      (active : record.phase = .active)
      (before : ∀ time ∈ range, time < record.start)
      (passes : ∀ time ∈ range, (state.claims key time).Passes) :
      Step state (state.scan txn record key range)
  /-- A read returns a version with all points after it claimed. -/
  | answer
      {txn : Txn}
      {record : Record Key Time Value}
      {key : Key}
      {time : Time}
      {value : Value}
      (present : state.records txn = some record)
      (active : record.phase = .active)
      (unwritten : lastWritten record.log key = none)
      (before : time < record.start)
      (written : state.claims key time = .written)
      (version : state.versions key time = some value)
      (guarded : ∀ between, time < between → between < record.start →
        between ∈ record.guarded key) :
      Step state (state.put txn (record.append (.read key value)))
  | lock
      {txn : Txn}
      {record : Record Key Time Value}
      {key : Key}
      (present : state.records txn = some record)
      (active : record.phase = .active)
      (own : lastWritten record.log key ≠ none)
      (free : state.claims key record.start = .free) :
      Step state (state.lock txn key record.start)
  | decide
      {txn : Txn}
      {record : Record Key Time Value}
      (present : state.records txn = some record)
      (active : record.phase = .active)
      (claimed : ∀ key, lastWritten record.log key ≠ none →
        state.claims key record.start = .writing txn) :
      Step state (state.decide txn record)
  | install
      {txn : Txn}
      {record : Record Key Time Value}
      (present : state.records txn = some record)
      (decided : record.phase = .decided) :
      Step state (state.install txn record)
  | drop
      {txn : Txn}
      {record : Record Key Time Value}
      (present : state.records txn = some record)
      (active : record.phase = .active) :
      Step state (state.drop txn record)

end Protocol

end Mvtx.Lib.Multiversion
