import Mvtx.Lib.Run
import Mvtx.Server.Handle

/-!
# Requests that are turned down

`getEvent` answers a request itself if it turns it down.  The reply is made by
`setReply` from the arguments of the handler, some of which are assigned by the
constructor of the handler, some by `getEvent`, and some by nobody.
-/

namespace Mvtx.Server

open Lib Lock SimpleTServer

/-- The arguments that replies are made from; `none` is a field that has not been assigned. -/
structure ReplyArgs where
  value : Option String
  status : Option Bool
  nodes : Option (Finset Nat)
  vote : Option Bool

namespace ReplyArgs

/-- The arguments after the constructor of the handler. -/
def constructed : Request → ReplyArgs
  | .read .. | .write .. => { value := none, status := none, nodes := none, vote := none }
  | .p1c .. | .p2c .. => { value := none, status := none, nodes := some ∅, vote := none }

/-- The arguments with which `getEvent` turns a request down. -/
def refused (request : Request) : ReplyArgs :=
  match request with
  | .read .. | .write .. => { constructed request with status := some false }
  | .p1c .. | .p2c .. => constructed request

/-- `setReply`; `unset` is what a flag happens to be that has not been assigned. -/
def setReply (args : ReplyArgs) (unset : Bool) : Request → Exec Reply
  | .read .. => do
      let value ← deref args.value
      return .read value (args.status.getD unset)
  | .write .. => .ok (.write (args.status.getD unset))
  | .p1c .. => do
      let nodes ← deref args.nodes
      return .p1c nodes (args.vote.getD unset)
  | .p2c .. => do
      let nodes ← deref args.nodes
      return .p2c nodes

/-- Every field that `setReply` reads has been assigned. -/
def Assigned (args : ReplyArgs) : Request → Prop
  | .read .. => args.value ≠ none ∧ args.status ≠ none
  | .write .. => args.status ≠ none
  | .p1c .. => args.nodes ≠ none ∧ args.vote ≠ none
  | .p2c .. => args.nodes ≠ none

end ReplyArgs

namespace SimpleTServer

/-- The server with the mutex that `getEvent` leaves locked when it turns a request down. -/
def leftLocked (server : SimpleTServer) : Request → SimpleTServer
  | .read .. | .write .. => server
  | .p1c .. => { server with tidWriteMutex := true }
  | .p2c .. => { server with tidMutex := true }

variable {getNode : Nat → Nat} {server server' : SimpleTServer} {rid event : Nat}
  {unset : Bool} {request : Request}

/-- `getEvent` turns a request down with the reply that `setReply` makes. -/
theorem getEvent_refused
    (unlocked : server.tidMutex = false ∧ server.tidWriteMutex = false)
    (refused : server.Refuses getNode request) :
    server.getEvent getNode rid event unset request =
      (do
        let reply ← (ReplyArgs.refused request).setReply unset request
        let server ← (server.leftLocked request).sendReply rid reply
        return (server, none)) := by
  obtain ⟨free, freeWrite⟩ := unlocked
  cases request with
  | read tid startTs key =>
      have unserved : getNode key ∉ server.nodes := refused
      simp [getEvent, unserved, ReplyArgs.setReply, ReplyArgs.refused, ReplyArgs.constructed,
        deref, bind, Except.bind]
  | write tid key value =>
      have unserved : getNode key ∉ server.nodes := refused
      simp [getEvent, unserved, ReplyArgs.setReply, ReplyArgs.refused, leftLocked, bind,
        Except.bind]
  | p1c tid =>
      have unknown : server.tidToWriteNodes tid = none := refused
      simp [getEvent, unknown, freeWrite, lockMutex, ReplyArgs.setReply, ReplyArgs.refused,
        ReplyArgs.constructed, leftLocked, deref, bind, Except.bind, pure, Except.pure]
  | p2c tid =>
      have unknown : server.tidToNodes tid = none := refused
      simp [getEvent, unknown, free, lockMutex, ReplyArgs.setReply, ReplyArgs.refused,
        ReplyArgs.constructed, leftLocked, deref, bind, Except.bind, pure, Except.pure]

/--
`getEvent` leaves the server intact: a request that it turns down gets one
reply, made from fields that have been assigned, and changes nothing else, and
both mutexes are free after any request.
-/
structure Intact (getNode : Nat → Nat) (server : SimpleTServer) (rid event : Nat) (unset : Bool)
    (request : Request) : Prop where
  refused : server.Refuses getNode request →
    (ReplyArgs.refused request).Assigned request ∧
      ∃ server' reply, server.getEvent getNode rid event unset request = .ok (server', none) ∧
        server' =
          { server with
            replies := Function.update server.replies rid (some reply)
            tidMutex := server'.tidMutex
            tidWriteMutex := server'.tidWriteMutex }
  unlocked : ∀ server' made,
    server.getEvent getNode rid event unset request = .ok (server', made) →
      server'.tidMutex = false ∧ server'.tidWriteMutex = false

/-- Of the requests that are turned down, only writes are turned down well. -/
def Meets (getNode : Nat → Nat) (server : SimpleTServer) (request : Request) : Prop :=
  server.Refuses getNode request → ∃ tid key value, request = .write tid key value

theorem getEvent_write_refused {tid key : Nat} {value : String} (fresh : server.replies rid = none)
    (refused : server.Refuses getNode (.write tid key value)) :
    server.getEvent getNode rid event unset (.write tid key value) =
      .ok (server.replied rid (.write false), none) := by
  have unserved : getNode key ∉ server.nodes := refused
  simp [getEvent, unserved, sendReply, fresh, replied, bind, Except.bind, pure, Except.pure]

/-- A request that gets its event leaves the mutexes as they are. -/
theorem mutexes_of_getEvent {made : Option ServerEvent}
    (unlocked : server.tidMutex = false ∧ server.tidWriteMutex = false)
    (accepted : ¬ server.Refuses getNode request)
    (taken : server.getEvent getNode rid event unset request = .ok (server', made)) :
    server'.tidMutex = false ∧ server'.tidWriteMutex = false := by
  obtain ⟨free, freeWrite⟩ := unlocked
  cases request with
  | read tid startTs key =>
      have served : getNode key ∈ server.nodes := not_not.1 accepted
      obtain ⟨rfl, -⟩ := by
        simpa [getEvent, served, lockMutex, free, bind, Except.bind, pure, Except.pure] using taken
      exact ⟨rfl, freeWrite⟩
  | write tid key value =>
      have served : getNode key ∈ server.nodes := not_not.1 accepted
      obtain ⟨rfl, -⟩ := by
        simpa [getEvent, served, lockMutex, free, freeWrite, bind, Except.bind, pure,
          Except.pure] using taken
      exact ⟨rfl, rfl⟩
  | p1c tid =>
      obtain ⟨nodes, known⟩ := Option.ne_none_iff_exists'.1 accepted
      obtain ⟨rfl, -⟩ := by
        simpa [getEvent, known, lockMutex, freeWrite, bind, Except.bind, pure,
          Except.pure] using taken
      exact ⟨free, rfl⟩
  | p2c tid =>
      obtain ⟨nodes, known⟩ := Option.ne_none_iff_exists'.1 accepted
      obtain ⟨rfl, -⟩ := by
        simpa [getEvent, known, lockMutex, free, bind, Except.bind, pure, Except.pure] using taken
      exact ⟨rfl, freeWrite⟩

theorem intact_iff (unlocked : server.tidMutex = false ∧ server.tidWriteMutex = false)
    (fresh : server.replies rid = none) :
    Intact getNode server rid event unset request ↔ server.Meets getNode request := by
  constructor
  · intro intact refused
    obtain ⟨assigned, server', reply, taken, -⟩ := intact.refused refused
    have free := intact.unlocked server' none taken
    rw [getEvent_refused unlocked refused] at taken
    cases request with
    | write tid key value => exact ⟨tid, key, value, rfl⟩
    | read tid startTs key => exact absurd rfl assigned.1
    | p1c tid => exact absurd rfl assigned.2
    | p2c tid =>
        simp [ReplyArgs.setReply, ReplyArgs.refused, ReplyArgs.constructed, leftLocked, sendReply,
          deref, fresh, bind, Except.bind, pure, Except.pure] at taken
        simp [← taken] at free
  · intro meets
    refine ⟨fun refused => ?_, fun server' made taken => ?_⟩
    · obtain ⟨tid, key, value, rfl⟩ := meets refused
      exact ⟨Option.some_ne_none false, _, _, getEvent_write_refused fresh refused, rfl⟩
    · by_cases refused : server.Refuses getNode request
      · obtain ⟨tid, key, value, rfl⟩ := meets refused
        rw [getEvent_write_refused fresh refused] at taken
        obtain ⟨rfl, -⟩ := Prod.mk.inj (Except.ok.inj taken)
        exact unlocked
      · exact mutexes_of_getEvent unlocked refused taken

end SimpleTServer

/-! ## Sequences of requests -/

/-- A request as it comes in: what identifies it and its event, and what it asks for. -/
structure Incoming where
  rid : Nat
  event : Nat
  unset : Bool
  request : Request

/-- A request is taken up, and its event is run. -/
def serve (getNode : Nat → Nat) (server : SimpleTServer) (incoming : Incoming) :
    Exec SimpleTServer :=
  server.handle getNode incoming.rid incoming.event incoming.unset incoming.request

/-- A new request, of which the condition is met. -/
def Admitted (getNode : Nat → Nat) (server : SimpleTServer) (incoming : Incoming) : Prop :=
  server.replies incoming.rid = none ∧ server.Meets getNode incoming.request

theorem mutexes_of_serve {getNode : Nat → Nat} {server server' : SimpleTServer}
    {incoming : Incoming} (unlocked : server.tidMutex = false ∧ server.tidWriteMutex = false)
    (meets : server.Meets getNode incoming.request)
    (served : serve getNode server incoming = .ok server') :
    server'.tidMutex = false ∧ server'.tidWriteMutex = false := by
  have handled := handled_of_handle served
  constructor
  · by_contra held
    rcases tidMutex_of_handled handled (by simpa using held) with
      ⟨tid, vote, isP2C, unknown⟩ | ⟨held', -⟩
    · have refused : server.Refuses getNode incoming.request := by rw [isP2C]; exact unknown
      obtain ⟨_, _, _, isWrite⟩ := meets refused
      rw [isWrite] at isP2C
      cases isP2C
    · exact absurd (unlocked.1.symm.trans held') (by simp)
  · by_contra held
    rcases tidWriteMutex_of_handled handled (by simpa using held) with
      ⟨tid, startTs, commitTs, readNodes, writeNodes, isP1C, unknown⟩ | ⟨held', -⟩
    · have refused : server.Refuses getNode incoming.request := by rw [isP1C]; exact unknown
      obtain ⟨_, _, _, isWrite⟩ := meets refused
      rw [isWrite] at isP1C
      cases isP1C
    · exact absurd (unlocked.2.symm.trans held') (by simp)

/--
As long as only writes are turned down, the mutexes are free between requests,
and a further request leaves the server intact if and only if it is not a read,
a `TP1C` or a `TP2C` that is turned down.
-/
theorem intact_iff_of_reach {getNode : Nat → Nat} {server : SimpleTServer}
    (reached : Reach (serve getNode) (Admitted getNode) .initial server) :
    (server.tidMutex = false ∧ server.tidWriteMutex = false) ∧
      ∀ incoming : Incoming, server.replies incoming.rid = none →
        (Intact getNode server incoming.rid incoming.event incoming.unset incoming.request ↔
          server.Meets getNode incoming.request) := by
  have unlocked : server.tidMutex = false ∧ server.tidWriteMutex = false := by
    induction reached with
    | refl => exact ⟨rfl, rfl⟩
    | tail earlier admitted served ih => exact mutexes_of_serve ih admitted.2 served
  exact ⟨unlocked, fun incoming fresh => intact_iff unlocked fresh⟩

/-- A write of another node is turned down, and the next request is taken up. -/
theorem intact_of_write :
    ∃ server, Reach (serve id) (Admitted id) .initial server ∧
      server.replies 1 = some (.write false) ∧
      Intact id server 2 2 false (.read 7 5 0) := by
  have reached : Reach (serve id) (Admitted id) .initial
      (SimpleTServer.initial.replied 1 (.write false)) :=
    .tail .refl (show Admitted id .initial ⟨1, 1, false, .write 7 3 "a"⟩ from
      ⟨rfl, fun _ => ⟨7, 3, "a", rfl⟩⟩) rfl
  refine ⟨_, reached, rfl, ((intact_iff_of_reach reached).2 ⟨2, 2, false, .read 7 5 0⟩ rfl).2 ?_⟩
  exact fun refused => absurd (show (0 : Nat) ∈ ({0} : Finset Nat) by simp) refused

/-- A `TP2C` of an unknown transaction is turned down, and its mutex stays locked. -/
theorem exists_not_intact :
    ¬ ∀ (getNode : Nat → Nat) (server : SimpleTServer) (incoming : Incoming),
      Reach (serve getNode) (fun server incoming => server.replies incoming.rid = none) .initial
        server → server.replies incoming.rid = none →
      Intact getNode server incoming.rid incoming.event incoming.unset incoming.request := by
  intro claim
  have intact := claim (fun _ => 0) .initial ⟨1, 1, false, .p2c 7 true⟩ .refl rfl
  exact absurd (intact.unlocked _ _ rfl).1 (by decide)

end Mvtx.Server
