import Mvtx.Cluster.Coherent

/-!
# No read is stuck

A read that has not been answered is blocked at a write lock, and a transaction
that holds the lock is between the two phases of its end.  Its `TP2C` runs the
event of the read, whatever the vote.
-/

namespace Mvtx.Cluster

open Lib Server Lock AVLTreeLockManager

variable {world : World} {event : Nat} {state : ReadEvent} {mapper : Nat → Nat}

/-- A transaction that is prepared does not wait for a read. -/
theorem Transaction.Accounted.not_reading {server : SimpleTServer}
    {handled : List (Nat × Request)} {id rid key node : Nat} {transaction : Transaction}
    (accounted : transaction.Accounted server handled id)
    (prepared : server.rdyToCommit transaction.tid ≠ none) :
    transaction.stage ≠ .reading rid key node := by
  intro stage
  simp only [Transaction.Accounted, stage] at accounted
  exact accounted.2.2.prepared.1 prepared

/-- Whoever holds and has recorded a write lock collects the events that are blocked at it. -/
theorem collected_of_holder {manager manager' : AVLTreeLockManager} {key tid : Nat}
    {lock : Interval} {events : Finset Nat} {vote : Bool} (wellFormed : manager.WellFormed)
    (member : lock ∈ manager.timeline key) (status : lock.status = .writeLock)
    (holds : tid ∈ lock.tids) (inside : Inside (manager.record tid key) lock)
    (registered : event ∈ manager.eventsAt key lock.endTs)
    (released : (if vote then manager.freeze tid else manager.unlock tid) =
      .ok (manager', events)) : event ∈ events := by
  have ordered := (wellFormed.isTimeline key).ordered member
  obtain ⟨visit, lets, release⟩ := exists_letsGo wellFormed released
  exact (release.collected event).2
    ⟨key, lock, member, inside.met ordered.1, lets.wakes lock holds status, registered⟩

/--
In every state between handlers, a read that has been taken up and not answered
is blocked at a write lock.  Among the holders of the lock is a transaction
whose `TP1C` has been handled and whose `TP2C` has not; it does not wait for a
read, and the event of the read is among those which its `TP2C` collects.
-/
theorem blocked_of_reach (reached : Reach (World.step mapper) DistinctStarts .first world)
    (present : world.server.readEvents event = some state)
    (unanswered : world.server.replies state.rid = none) :
    ∃ lock, world.server.lockManager.covering state.key (uintPred state.startTs) = some lock ∧
      lock.status = .writeLock ∧
      event ∈ world.server.lockManager.eventsAt state.key lock.endTs ∧
      ∃ id transaction, world.transactions id = some transaction ∧ transaction.tid ∈ lock.tids ∧
        PhaseOneHandled world.handled id ∧ ¬ PhaseTwoHandled world.handled id ∧
        (∀ rid key node, transaction.stage ≠ .reading rid key node) ∧
        ∀ (vote : Bool) manager events,
          (if vote then world.server.lockManager.freeze transaction.tid
            else world.server.lockManager.unlock transaction.tid) = .ok (manager, events) →
          event ∈ events := by
  have coherent := coherent_of_reach reached
  obtain ⟨held, -, -, -, reads⟩ := coherent.wakeful
  obtain ⟨waits, wakes⟩ := (reads event state present).resolve_right fun answered => by
    obtain ⟨-, value, replied⟩ := answered
    exact absurd (unanswered.symm.trans replied) (by simp)
  obtain ⟨lock, covering, status, registered⟩ := wakes.resolve_left List.not_mem_nil
  have member := ((covering_eq_some held.wellFormed.trees).1 covering).1
  obtain ⟨tid, holds, inside, prepared⟩ := held.holder state.key lock member
    (by rw [status]; rfl)
  have isPrepared := prepared status
  obtain ⟨id, transaction, there, rfl⟩ : ∃ id transaction,
      world.transactions id = some transaction ∧ transaction.tid = tid := by
    by_contra nobody
    have knows := coherent.unknown tid fun id transaction there same =>
      nobody ⟨id, transaction, there, same⟩
    exact knows.prepared.1 isPrepared
  have accounted := coherent.accounted id transaction there
  obtain ⟨one, two⟩ := accounted.prepared isPrepared
  rw [uintPred_eq waits.timely.1]
  exact ⟨lock, covering, status, registered, id, transaction, there, holds, one, two,
    fun _ _ _ => accounted.not_reading isPrepared,
    fun vote manager events released => collected_of_holder held.wellFormed member status holds
      inside registered released⟩

/-- A read at `20` meets the write lock which another transaction has taken at `10`. -/
theorem blocked_of_reach_of_two :
    ∃ (world : World) (state : ReadEvent) (lock : Interval),
      world.server.readEvents 1 = some state ∧
      world.server.lockManager.covering state.key (uintPred state.startTs) = some lock ∧
      lock.status = .writeLock := by
  obtain ⟨world, reached, holds⟩ := exists_reach_of_admits DistinctStarts
    [.start 0 7 10, .start 1 8 20, .write 0 3 "a", .finish 0 true, .phaseOne 0 false,
      .read 1 3 1]
    (fun world => match world.server.readEvents 1 with
      | some state => world.server.replies state.rid = none
      | none => false)
    (show admits (World.step getNode) _ .first _ = true by decide)
    (show ends (World.step getNode) _ .first _ = true by decide)
  split at holds
  · next state present =>
      obtain ⟨lock, covering, status, -⟩ :=
        blocked_of_reach reached present (by simpa using holds)
      exact ⟨world, state, lock, present, covering, status⟩
  · exact absurd holds (by simp)

end Mvtx.Cluster
