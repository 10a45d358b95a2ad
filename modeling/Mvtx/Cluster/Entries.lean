import Mvtx.Cluster.Proceeds
import Mvtx.Server.Wakeful

/-!
# What the server keeps for a transaction

While transaction IDs are distinct, the entries that the server has under an ID
say where the transaction stands: `Transaction.Accounted`.  A read that has not
been answered belongs to a transaction that waits for it, and a mutex that has
been left locked to one that will not get out of its loop.

This holds for every key mapper; the server serves the node `0` only.
-/

namespace Mvtx.Cluster

open Lib Server

/-- What a `TP2C` leaves of the entries of its transaction. -/
theorem entries_of_p2c {server server' : SimpleTServer} {getNode : Nat → Nat}
    {rid event tid : Nat} {unset vote : Bool}
    (handled : Handled getNode server rid event unset (.p2c tid vote) server') :
    server'.tidToNodes tid = none ∧
      server'.tidToWriteNodes tid = server.tidToWriteNodes tid ∧
      (server.tidToNodes tid ≠ none ∧ server'.rdyToCommit tid = none ∧
          server'.pendWrites tid =
            (if server.rdyToCommit tid = none then server.pendWrites tid else none) ∨
        server.tidToNodes tid = none ∧ server'.rdyToCommit tid = server.rdyToCommit tid ∧
          server'.pendWrites tid = server.pendWrites tid) := by
  cases handled with
  | @p2c _ _ nodes _ _ server₁ known unlocked released ran fresh =>
      have reads := readsOnly_runEvents ran
      obtain ⟨store, pendWrites, rdyToCommit, same, -, -, ready, pending⟩ :=
        finalize_eq server₁ tid vote
      rw [reads.rdyToCommit, reads.pendWrites] at pending
      rw [same]
      refine ⟨?_, ?_, .inl ⟨by simp [known], ready, pending⟩⟩
      · simp [SimpleTServer.replied, reads.tidToNodes]
      · simp [SimpleTServer.replied, reads.tidToWriteNodes]
  | p2cRefused refused unlocked fresh => exact ⟨refused, rfl, .inr ⟨refused, rfl, rfl⟩⟩

/-- Which entries the server has for a transaction ID. -/
structure Knows (server : SimpleTServer) (tid : Nat)
    (known knownWrite written prepared : Prop) : Prop where
  known : server.tidToNodes tid ≠ none ↔ known
  knownWrite : server.tidToWriteNodes tid ≠ none ↔ knownWrite
  written : server.pendWrites tid ≠ none ↔ written
  prepared : server.rdyToCommit tid ≠ none ↔ prepared

namespace Knows

variable {server server' : SimpleTServer} {getNode : Nat → Nat} {rid event tid : Nat}
  {unset : Bool} {known knownWrite written prepared known' knownWrite' written' prepared' : Prop}

theorem congr (knows : Knows server tid known knownWrite written prepared)
    (known_iff : known ↔ known') (knownWrite_iff : knownWrite ↔ knownWrite')
    (written_iff : written ↔ written') (prepared_iff : prepared ↔ prepared') :
    Knows server tid known' knownWrite' written' prepared' where
  known := knows.known.trans known_iff
  knownWrite := knows.knownWrite.trans knownWrite_iff
  written := knows.written.trans written_iff
  prepared := knows.prepared.trans prepared_iff

theorem self (server : SimpleTServer) (tid : Nat) :
    Knows server tid (server.tidToNodes tid ≠ none) (server.tidToWriteNodes tid ≠ none)
      (server.pendWrites tid ≠ none) (server.rdyToCommit tid ≠ none) :=
  ⟨Iff.rfl, Iff.rfl, Iff.rfl, Iff.rfl⟩

/-- The request of another transaction. -/
theorem frame {other : Nat} (knows : Knows server other known knownWrite written prepared)
    (touches : Touches server server' rid tid) (differs : other ≠ tid) :
    Knows server' other known knownWrite written prepared where
  known := by rw [touches.known other differs]; exact knows.known
  knownWrite := by rw [touches.knownWrite other differs]; exact knows.knownWrite
  written := by rw [touches.pendWrites other differs]; exact knows.written
  prepared := by rw [touches.rdyToCommit other differs]; exact knows.prepared

theorem read {startTs key : Nat} (knows : Knows server tid known knownWrite written prepared)
    (handled : Handled getNode server rid event unset (.read tid startTs key) server') :
    getNode key ∈ server.nodes ∧ Knows server' tid True knownWrite written prepared := by
  cases handled with
  | read served unlocked ran =>
      have reads := readsOnly_runRead ran
      refine ⟨served, ?_, ?_, ?_, ?_⟩
      · simp [reads.tidToNodes, SimpleTServer.takenUp, SimpleTServer.setEvent,
          SimpleTServer.insertNode]
      · rw [reads.tidToWriteNodes]
        exact knows.knownWrite
      · rw [reads.pendWrites]
        exact knows.written
      · rw [reads.rdyToCommit]
        exact knows.prepared

theorem write {key : Nat} {value : String}
    (knows : Knows server tid known knownWrite written prepared)
    (handled : Handled getNode server rid event unset (.write tid key value) server') :
    Knows server' tid (getNode key ∈ server.nodes ∨ known)
      (getNode key ∈ server.nodes ∨ knownWrite) (getNode key ∈ server.nodes ∨ written)
      prepared := by
  cases handled with
  | write served unlocked fresh =>
      refine ⟨?_, ?_, ?_, knows.prepared⟩ <;>
        simp [served, SimpleTServer.replied, SimpleTServer.add, SimpleTServer.insertNode]
  | writeRefused refused fresh =>
      exact ⟨knows.known.trans (by simp [refused]), knows.knownWrite.trans (by simp [refused]),
        knows.written.trans (by simp [refused]), knows.prepared⟩

theorem p1c {startTs commitTs : Nat} {readNodes writeNodes : Finset Nat}
    (knows : Knows server tid known knownWrite written prepared)
    (handled : Handled getNode server rid event unset
      (.p1c tid startTs commitTs readNodes writeNodes) server') :
    Knows server' tid known False written (knownWrite ∨ prepared) := by
  cases handled with
  | @p1c _ _ _ _ _ nodes _ _ known' unlocked locked fresh =>
      have taken : knownWrite := knows.knownWrite.1 (by simp [known'])
      refine ⟨knows.known, ?_, knows.written, ?_⟩ <;>
        simp [taken, SimpleTServer.replied, SimpleTServer.prepare]
  | p1cRefused refused unlocked fresh =>
      have untaken : ¬ knownWrite := fun taken => knows.knownWrite.2 taken refused
      exact ⟨knows.known, knows.knownWrite.trans (by simp [untaken]), knows.written,
        knows.prepared.trans (by simp [untaken])⟩

theorem p2c {vote : Bool} (knows : Knows server tid known knownWrite written prepared)
    (handled : Handled getNode server rid event unset (.p2c tid vote) server')
    (all : written → prepared) (taken : prepared → known) :
    Knows server' tid False knownWrite False False := by
  obtain ⟨forgotten, sameWrite, outcome⟩ := entries_of_p2c handled
  have settled : server'.pendWrites tid = none ∧ server'.rdyToCommit tid = none := by
    rcases outcome with ⟨-, ready, pending⟩ | ⟨refused, ready, pending⟩
    · refine ⟨?_, ready⟩
      rw [pending]
      split
      · next unprepared =>
          by_contra isWritten
          exact knows.prepared.2 (all (knows.written.1 isWritten)) unprepared
      · rfl
    · have unprepared : ¬ prepared := fun isPrepared => knows.known.2 (taken isPrepared) refused
      rw [ready, pending]
      constructor
      · by_contra isWritten
        exact unprepared (all (knows.written.1 isWritten))
      · by_contra isReady
        exact unprepared (knows.prepared.1 isReady)
  refine ⟨by simp [forgotten], ?_, by simp [settled.1], by simp [settled.2]⟩
  rw [sameWrite]
  exact knows.knownWrite

end Knows

/-! ## Where a transaction stands -/

/-- A `TP1C` of a transaction has been handled. -/
def PhaseOneHandled (handled : List (Nat × Request)) (id : Nat) : Prop :=
  ∃ tid startTs commitTs readNodes writeNodes,
    (id, .p1c tid startTs commitTs readNodes writeNodes) ∈ handled

/-- A `TP2C` of a transaction has been handled. -/
def PhaseTwoHandled (handled : List (Nat × Request)) (id : Nat) : Prop :=
  ∃ tid vote, (id, .p2c tid vote) ∈ handled

/--
The entries of the server for a transaction are those that its stage says.  The
node `0` is the one whose requests are not turned down.
-/
def Transaction.Accounted (server : SimpleTServer) (handled : List (Nat × Request)) (id : Nat)
    (transaction : Transaction) : Prop :=
  let known := 0 ∈ transaction.nodes
  let wrote := 0 ∈ transaction.writeNodes
  match transaction.stage with
  | .active =>
      ¬ PhaseTwoHandled handled id ∧ Knows server transaction.tid known wrote wrote False
  | .reading _ _ node =>
      node = 0 ∧ ¬ PhaseTwoHandled handled id ∧
        Knows server transaction.tid True wrote wrote False
  | .phaseOne _ remNodes _ =>
      ¬ PhaseTwoHandled handled id ∧
        (remNodes = transaction.writeNodes ∧
            Knows server transaction.tid known wrote wrote False ∨
          remNodes = ∅ ∧ wrote ∧ PhaseOneHandled handled id ∧
            Knows server transaction.tid True False True True)
  | .phaseTwo _ _ remNodes =>
      remNodes = transaction.nodes ∧ ¬ PhaseTwoHandled handled id ∧
          (wrote → PhaseOneHandled handled id) ∧
          Knows server transaction.tid known False wrote wrote ∨
        Knows server transaction.tid False False False False
  | .ended _ _ => Knows server transaction.tid False False False False

/-- The server and the transactions agree. -/
structure Coherent (world : World) : Prop extends Tracked world where
  nodes : world.server.nodes = {0}
  accounted : ∀ id transaction, world.transactions id = some transaction →
    transaction.Accounted world.server world.handled id
  timely : ∀ id transaction, world.transactions id = some transaction →
    1 ≤ transaction.startTs ∧ transaction.startTs < uintMax
  /-- Nothing is kept for IDs that nobody has. -/
  unknown : ∀ tid, (∀ id transaction, world.transactions id = some transaction →
    transaction.tid ≠ tid) → Knows world.server tid False False False False
  distinct : ∀ id id' transaction transaction', world.transactions id = some transaction →
    world.transactions id' = some transaction' → transaction.tid = transaction'.tid → id = id'
  wakeful : Wakeful [] world.server

theorem phaseOneHandled_append {handled more : List (Nat × Request)} {id : Nat}
    (earlier : PhaseOneHandled handled id) : PhaseOneHandled (handled ++ more) id := by
  obtain ⟨tid, startTs, commitTs, readNodes, writeNodes, member⟩ := earlier
  exact ⟨tid, startTs, commitTs, readNodes, writeNodes, List.mem_append_left _ member⟩

theorem phaseTwoHandled_append {handled more : List (Nat × Request)} {id : Nat}
    (others : ∀ tid vote, (id, .p2c tid vote) ∉ more) :
    PhaseTwoHandled (handled ++ more) id ↔ PhaseTwoHandled handled id := by
  constructor
  · rintro ⟨tid, vote, member⟩
    exact ⟨tid, vote, (List.mem_append.1 member).resolve_right (others tid vote)⟩
  · rintro ⟨tid, vote, member⟩
    exact ⟨tid, vote, List.mem_append_left _ member⟩

/-- The request of another transaction leaves a transaction accounted for. -/
theorem Transaction.Accounted.frame {server server' : SimpleTServer}
    {handled more : List (Nat × Request)} {rid tid id : Nat} {transaction : Transaction}
    (accounted : transaction.Accounted server handled id)
    (touches : Touches server server' rid tid) (differs : transaction.tid ≠ tid)
    (others : ∀ entry ∈ more, entry.1 ≠ id) :
    transaction.Accounted server' (handled ++ more) id := by
  have two : PhaseTwoHandled (handled ++ more) id ↔ PhaseTwoHandled handled id :=
    phaseTwoHandled_append fun tid vote member => others _ member rfl
  unfold Transaction.Accounted at accounted ⊢
  simp only [two]
  split at accounted
  · exact accounted.imp_right fun knows => knows.frame touches differs
  · exact accounted.imp_right fun rest => rest.imp_right fun knows => knows.frame touches differs
  · refine accounted.imp_right (Or.imp ?_ ?_)
    · exact fun rest => rest.imp_right fun knows => knows.frame touches differs
    · exact fun ⟨none', wrote, one, knows⟩ =>
        ⟨none', wrote, phaseOneHandled_append one, knows.frame touches differs⟩
  · refine accounted.imp ?_ fun knows => knows.frame touches differs
    exact fun ⟨all, open', one, knows⟩ =>
      ⟨all, open', fun wrote => phaseOneHandled_append (one wrote), knows.frame touches differs⟩
  · exact accounted.frame touches differs

/-- A transaction that is prepared is between its `TP1C` and its `TP2C`. -/
theorem Transaction.Accounted.prepared {server : SimpleTServer}
    {handled : List (Nat × Request)} {id : Nat} {transaction : Transaction}
    (accounted : transaction.Accounted server handled id)
    (prepared : server.rdyToCommit transaction.tid ≠ none) :
    PhaseOneHandled handled id ∧ ¬ PhaseTwoHandled handled id := by
  unfold Transaction.Accounted at accounted
  split at accounted
  · exact (accounted.2.prepared.1 prepared).elim
  · exact (accounted.2.2.prepared.1 prepared).elim
  · obtain ⟨open', ⟨-, knows⟩ | ⟨-, -, one, -⟩⟩ := accounted
    · exact (knows.prepared.1 prepared).elim
    · exact ⟨one, open'⟩
  · rcases accounted with ⟨-, open', one, knows⟩ | knows
    · exact ⟨one (knows.prepared.1 prepared), open'⟩
    · exact (knows.prepared.1 prepared).elim
  · exact (accounted.prepared.1 prepared).elim

namespace Coherent

variable {world : World} {id : Nat} {transaction transaction' : Transaction}
  {server' : SimpleTServer} {mapper : Nat → Nat}

theorem first : Coherent .first where
  toTracked := .first
  nodes := rfl
  accounted := by simp [World.first]
  timely := by simp [World.first]
  unknown := fun _ _ => by constructor <;> simp [World.first, SimpleTServer.initial]
  distinct := by simp [World.first]
  wakeful := .initial

/-- A transaction goes on, and is accounted for afterwards. -/
theorem change (coherent : Coherent world) {more : List (Nat × Request)}
    (proceeds : Proceeds world id transaction transaction' server' more)
    (accounted : transaction'.Accounted server' (world.handled ++ more) id)
    (wakeful : Wakeful [] server') :
    Coherent (world.after server' id transaction' more) := by
  have tracked := coherent.toTracked.change proceeds
  obtain ⟨present, tid, startTs, -, own, touches, -, -, -⟩ := proceeds
  refine
    { toTracked := tracked
      nodes := touches.nodes.trans coherent.nodes
      accounted := fun other current here => ?_
      timely := fun other current here => ?_
      unknown := fun unknownTid nobody => ?_
      distinct := fun first second current current' here here' same => ?_
      wakeful := wakeful }
  · rcases World.after_cases here with ⟨rfl, rfl⟩ | ⟨differs, old⟩
    · exact accounted
    · refine (coherent.accounted other current old).frame touches (fun same => ?_)
        fun entry member same => ?_
      · exact differs (coherent.distinct _ _ _ _ old present same)
      · exact differs (same.symm.trans (own entry member))
  · rcases World.after_cases here with ⟨rfl, rfl⟩ | ⟨differs, old⟩
    · exact startTs ▸ coherent.timely other transaction present
    · exact coherent.timely other current old
  · have differs : unknownTid ≠ transaction.tid := by
      rintro rfl
      exact nobody id transaction' World.after_self tid
    refine (coherent.unknown unknownTid fun other current old => ?_).frame touches differs
    by_cases same : other = id
    · subst same
      rw [← Option.some.inj (present.symm.trans old)]
      exact differs.symm
    · exact nobody other current (World.after_of_ne old same)
  · rcases World.after_cases here with ⟨rfl, rfl⟩ | ⟨differs, old⟩ <;>
      rcases World.after_cases here' with ⟨rfl, rfl⟩ | ⟨differs', old'⟩
    · rfl
    · exact coherent.distinct _ _ _ _ present old' (tid.symm.trans same)
    · exact coherent.distinct _ _ _ _ old present (same.trans tid)
    · exact coherent.distinct _ _ _ _ old old' same

end Coherent

end Mvtx.Cluster
