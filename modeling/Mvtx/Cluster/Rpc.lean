import Mvtx.Client.Outstanding
import Mvtx.Cluster.Refinement

/-!
# The RPC clients

The Coordinators of a process share a `GRPCClient`.  In `System` a reply goes
straight to its Coordinator; here it goes through the record that the request
has been made with, which `syncRPC` or `waitAsyncReply` fills in.

Every reply is delivered as the server has given it, but for a read that is
answered with a value: `SimpleResolutionClient` leaves the pointer to the value
unset, and the process dies.  The server and the other processes go on.  So
every run with RPC clients is a run of the system in which some processes stop.
-/

namespace Mvtx.Cluster

open Lib Lib.Serial Server Client

/-! ## Records and replies -/

/--
The record that `SimpleResolutionClient` makes a request with.  What the reply
overwrites in any case is false at first.
-/
def recordOf : Request → RpcArgs
  | .read tid startTs key =>
      .tread { tid := tid, startTs := startTs, key := key, value := none, status := false }
  | .write tid key value =>
      .twrite { tid := tid, key := key, value := value, status := false }
  | .p1c tid startTs commitTs readNodes writeNodes =>
      .tp1c
        { tid := tid
          startTs := startTs
          commitTs := commitTs
          readNodes := readNodes
          writeNodes := writeNodes
          nodes := ∅
          vote := false }
  | .p2c tid vote => .tp2c { tid := tid, vote := vote, nodes := ∅ }

/-- A server that gives one reply, and with the status OK only to requests of its kind. -/
def serviceOf (reply : Reply) : Service where
  read := fun _ =>
    match reply with
    | .read value status => some { value := value, status := status }
    | _ => none
  write := fun _ =>
    match reply with
    | .write status => some { status := status }
    | _ => none
  p1c := fun _ =>
    match reply with
    | .p1c nodes vote => some { node := ascending nodes, vote := vote }
    | _ => none
  p2c := fun _ =>
    match reply with
    | .p2c nodes => some { node := ascending nodes }
    | _ => none

/-- The reply that a record holds. -/
def replyOf : RpcArgs → Reply
  | .tread args => .read (args.value.getD "") args.status
  | .twrite args => .write args.status
  | .tp1c args => .p1c args.nodes args.vote
  | .tp2c args => .p2c args.nodes

/-! ## Steps -/

/-- The system with the RPC clients of its processes. -/
structure RpcSystem where
  system : System
  rpcClients : Nat → GRPCClient
  /-- The records of the synchronous requests. -/
  records : Nat → Option RpcArgs
  /-- The processes that have died. -/
  crashed : Nat → Bool

namespace RpcSystem

/-- The first state, with some server. -/
def first (server : SimpleTServer) : RpcSystem where
  system := .first server
  rpcClients := fun _ => .initial
  records := fun _ => none
  crashed := fun _ => false

/-- A process makes the RPC of a message. -/
def post (process : Nat) (state : RpcSystem) (rid : Nat) : RpcSystem :=
  match state.system.calls rid, state.system.requests rid with
  | some call, some request =>
      match call.tag with
      | none =>
          { state with
            records := Function.update state.records rid (some (recordOf request)) }
      | some tag =>
          { state with
            rpcClients := Function.update state.rpcClients process
              ((state.rpcClients process).asyncRPC tag (recordOf request)) }
  | _, _ => state

/-- A process comes to another state of the system, with RPCs for the new messages. -/
def goOn (process : Nat) (state : RpcSystem) (system : System) : RpcSystem :=
  (List.range' (state.system.sent + 1) (system.sent - state.system.sent)).foldl (post process)
    { state with system := system }

/-- A Coordinator is called or goes on. -/
def act (getNode : Nat → Nat) (state : RpcSystem) (id : Nat) (label : Label) :
    Except Halt RpcSystem :=
  match state.system.coordinators id with
  | none => .error .disabled
  | some (process, _) =>
      if state.crashed process then .error .disabled
      else do
        let system ← state.system.step getNode label
        return goOn process state system

/-- A process follows the unset pointer. -/
def crash (state : RpcSystem) (process : Nat) : RpcSystem :=
  { state with crashed := Function.update state.crashed process true }

/-- A Coordinator finds the reply to a message in the record. -/
def deliver (state : RpcSystem) (id process rid : Nat) (coordinator : Coordinator)
    (record : RpcArgs) : Except Halt RpcSystem :=
  match coordinator.receive (state.system.processes process).client (replyOf record) with
  | none => .error .disabled
  | some (client, coordinator) =>
      let system := state.system.setCoordinator id process client coordinator
      .ok
        { state with
          system := { system with calls := Function.update system.calls rid none } }

/-- The RPC of a message returns. -/
def receive (state : RpcSystem) (id rid : Nat) : Except Halt RpcSystem :=
  match state.system.coordinators id, state.system.calls rid,
    state.system.server.replies rid with
  | some (process, coordinator), some call, some reply =>
      if state.crashed process then .error .disabled
      else if state.system.awaits process id coordinator rid then
        match call.tag with
        | none =>
            match state.records rid with
            | none => .error .disabled
            | some record =>
                match syncRPC (serviceOf reply) record with
                | .error _ => .ok (state.crash process)
                | .ok (record, true) => state.deliver id process rid coordinator record
                | .ok (_, false) => .error .disabled
        | some tag =>
            match (state.rpcClients process).waitAsyncReply (serviceOf reply) tag with
            | .error _ => .ok (state.crash process)
            | .ok (some (rpcClient, record, true)) =>
                { state with
                  rpcClients := Function.update state.rpcClients process rpcClient }.deliver
                  id process rid coordinator record
            | .ok _ => .error .disabled
      else .error .disabled
  | _, _, _ => .error .disabled

/-- Take a step. -/
def step (getNode : Nat → Nat) (state : RpcSystem) : Label → Except Halt RpcSystem
  | .start process tid startTs =>
      if state.crashed process then .error .disabled
      else do
        let system ← state.system.step getNode (.start process tid startTs)
        return { state with system := system }
  | .read id key => state.act getNode id (.read id key)
  | .write id key value => state.act getNode id (.write id key value)
  | .commit id => state.act getNode id (.commit id)
  | .abort id => state.act getNode id (.abort id)
  | .turn id => state.act getNode id (.turn id)
  | .receive id rid => state.receive id rid
  | .handle rid event unset => do
      let system ← state.system.step getNode (.handle rid event unset)
      return { state with system := system }

end RpcSystem

variable {system system' : System} {state state' : RpcSystem} {id process rid tag : Nat}
  {client : SimpleResolutionClient} {coordinator coordinator' : Coordinator}
  {record : RpcArgs} {reply : Reply} {label : Label} {labels : List Label}

/-! ## Filling in a record -/

/-- The kind of record that a Coordinator waits with; the pointer to a value is unset. -/
def Expects (coordinator : Coordinator) (record : RpcArgs) : Prop :=
  match coordinator.control, record with
  | .reading _ _, .tread args => args.value = none
  | .writing _, .twrite _ => True
  | .phaseOne _ _, .tp1c args => args.nodes = ∅
  | .phaseTwo _ _ _, .tp2c args => args.nodes = ∅
  | _, _ => False

/-- A Coordinator reads, and the server has found a value. -/
def readsValue (coordinator : Coordinator) (reply : Reply) : Bool :=
  match coordinator.control, reply with
  | .reading _ _, .read _ status => status
  | _, _ => false

theorem toFinset_ascending (nodes : Finset Nat) : (ascending nodes).toFinset = nodes := by
  ext node
  simp

/-- A record that a reply has been filled into leads a Coordinator where the reply does. -/
theorem receive_replyOf (expects : Expects coordinator record)
    (answered : (serviceOf reply).answers record = true) :
    coordinator.receive client (replyOf (proceed (serviceOf reply) record)) =
      coordinator.receive client reply := by
  unfold Expects at expects
  split at expects
  · next _ key node args control =>
      cases reply with
      | read value status =>
          cases status <;>
            simp [Coordinator.receive, control, replyOf, proceed, serviceOf]
      | write | p1c | p2c => simp [Service.answers, serviceOf] at answered
  · next _ node args control =>
      cases reply with
      | write status => simp [replyOf, proceed, serviceOf]
      | read | p1c | p2c => simp [Service.answers, serviceOf] at answered
  · next _ committing loop args control =>
      cases reply with
      | p1c nodes vote => simp [replyOf, proceed, serviceOf, expects, toFinset_ascending]
      | read | write | p2c => simp [Service.answers, serviceOf] at answered
  · next _ committing vote loop args control =>
      cases reply with
      | p2c nodes => simp [replyOf, proceed, serviceOf, expects, toFinset_ascending]
      | read | write | p1c => simp [Service.answers, serviceOf] at answered
  · exact expects.elim

/-- A reply that a Coordinator can collect is of the kind of its record. -/
theorem answers_of_receive {outcome : SimpleResolutionClient × Coordinator}
    (expects : Expects coordinator record)
    (received : coordinator.receive client reply = some outcome) :
    (serviceOf reply).answers record = true := by
  unfold Expects at expects
  split at expects
  all_goals
    first
    | exact expects.elim
    | cases reply <;> simp_all [Coordinator.receive, Service.answers, serviceOf]

/-- A synchronous request faults if and only if it is a read that is answered with a value. -/
theorem syncRPC_eq (expects : Expects coordinator record)
    (sync : coordinator.awaits = some none) :
    syncRPC (serviceOf reply) record =
      if readsValue coordinator reply then .error .nullDereference
      else .ok (proceed (serviceOf reply) record, (serviceOf reply).answers record) := by
  unfold Expects at expects
  split at expects
  · next _ key node args control =>
      cases reply with
      | read value status =>
          cases status <;>
            simp [readsValue, control, syncRPC, proceed, Service.answers, serviceOf, expects,
              deref, bind, Except.bind, pure, Except.pure]
      | write | p1c | p2c =>
          simp [readsValue, control, syncRPC, proceed, Service.answers, serviceOf,
            ReadReply.unset, pure, Except.pure]
  · next _ node args control =>
      cases reply <;>
        simp [readsValue, control, syncRPC, proceed, Service.answers, serviceOf, WriteReply.unset]
  · next _ committing loop args control =>
      simp only [Coordinator.awaits, control] at sync
      split at sync <;> simp at sync
  · next _ committing vote loop args control =>
      simp only [Coordinator.awaits, control] at sync
      split at sync <;> simp at sync
  · exact expects.elim

/-! ## The records of the calls -/

/-- The record of a call: with a handler, or with the caller if the call has no tag. -/
def RpcSystem.Holds (state : RpcSystem) (process rid : Nat) (record : RpcArgs) :
    Option Nat → Prop
  | none => state.records rid = some record
  | some tag => ∃ address,
      (state.rpcClients process).tagToHandler tag = some (some address) ∧
        (state.rpcClients process).handlers address = some ⟨record, false⟩

/-- Tags are mapped to handlers of their own. -/
structure Apart (client : GRPCClient) : Prop where
  allocated : ∀ tag address, client.tagToHandler tag = some (some address) →
    address < client.allocated
  distinct : ∀ tag tag' address, client.tagToHandler tag = some (some address) →
    client.tagToHandler tag' = some (some address) → tag = tag'

/-- Every call is made with a record of its kind. -/
structure Linked (state : RpcSystem) : Prop where
  consistent : Consistent state.system
  apart : ∀ process, Apart (state.rpcClients process)
  records : ∀ rid id tag process coordinator,
    state.system.calls rid = some ⟨id, tag⟩ →
    state.system.coordinators id = some (process, coordinator) →
    ∃ record, state.Holds process rid record tag ∧ Expects coordinator record

theorem Apart.asyncRPC {rpcClient : GRPCClient} (apart : Apart rpcClient) (tag : Nat)
    (args : RpcArgs) : Apart (rpcClient.asyncRPC tag args) where
  allocated := by
    intro other address mapped
    by_cases same : other = tag
    · subst same
      obtain rfl : rpcClient.allocated = address := by simpa [GRPCClient.asyncRPC] using mapped
      exact Nat.lt_succ_self _
    · exact (apart.allocated other address
        (by simpa [GRPCClient.asyncRPC, same] using mapped)).trans (Nat.lt_succ_self _)
  distinct := by
    intro one two address mapped mapped'
    have old : ∀ other, other ≠ tag →
        (rpcClient.asyncRPC tag args).tagToHandler other = some (some address) →
          address < rpcClient.allocated ∧
            rpcClient.tagToHandler other = some (some address) := by
      intro other differs present
      have present' : rpcClient.tagToHandler other = some (some address) := by
        simpa [GRPCClient.asyncRPC, differs] using present
      exact ⟨apart.allocated _ _ present', present'⟩
    have new : ∀ other, other = tag →
        (rpcClient.asyncRPC tag args).tagToHandler other = some (some address) →
          address = rpcClient.allocated := by
      rintro other rfl present
      simpa [GRPCClient.asyncRPC, eq_comm] using present
    by_cases isNew : one = tag <;> by_cases isNew' : two = tag
    · exact isNew.trans isNew'.symm
    · exact absurd (new one isNew mapped) (old two isNew' mapped').1.ne
    · exact absurd (new two isNew' mapped') (old one isNew mapped).1.ne
    · exact apart.distinct one two address (old one isNew mapped).2 (old two isNew' mapped').2

theorem Linked.first : Linked (.first .initial) where
  consistent := .first
  apart := fun _ =>
    { allocated := by simp [RpcSystem.first, GRPCClient.initial]
      distinct := by simp [RpcSystem.first, GRPCClient.initial] }
  records := by simp [RpcSystem.first, System.first]

namespace RpcSystem

/-! ## Sending -/

@[simp]
theorem post_system (process : Nat) (state : RpcSystem) (rid : Nat) :
    (post process state rid).system = state.system ∧
      (post process state rid).crashed = state.crashed := by
  unfold post
  split
  · split <;> exact ⟨rfl, rfl⟩
  · exact ⟨rfl, rfl⟩

theorem foldl_post_system (process : Nat) (state : RpcSystem) (rids : List Nat) :
    (rids.foldl (post process) state).system = state.system ∧
      (rids.foldl (post process) state).crashed = state.crashed := by
  induction rids generalizing state with
  | nil => exact ⟨rfl, rfl⟩
  | cons rid rids ih =>
      obtain ⟨system, crashed⟩ := ih (post process state rid)
      rw [List.foldl_cons, system, crashed]
      exact post_system process state rid

theorem goOn_system (process : Nat) (state : RpcSystem) (system : System) :
    (goOn process state system).system = system ∧
      (goOn process state system).crashed = state.crashed :=
  foldl_post_system _ _ _

end RpcSystem

/-- What a Coordinator has sent is a request for its record. -/
theorem Agrees.expects_recordOf {tag : Option Nat} {request : Request}
    (agrees : Agrees system id coordinator) (call : system.calls rid = some ⟨id, tag⟩)
    (requested : system.requests rid = some request) :
    Expects coordinator (recordOf request) := by
  have places := agrees.requested call requested
  cases request with
  | read => simp [Expects, recordOf, places.2.2.1]
  | write => simp [Expects, recordOf, places.2.1]
  | p1c =>
      obtain ⟨-, -, committing, loop, control, -⟩ := places
      simp [Expects, recordOf, control]
  | p2c =>
      obtain ⟨-, -, committing, loop, control, -⟩ := places
      simp [Expects, recordOf, control]

/-- The calls up to a number are made with records of their kinds. -/
structure LinkedUpTo (state : RpcSystem) (number : Nat) : Prop where
  apart : ∀ process, Apart (state.rpcClients process)
  records : ∀ rid ≤ number, ∀ id tag process coordinator,
    state.system.calls rid = some ⟨id, tag⟩ →
    state.system.coordinators id = some (process, coordinator) →
    ∃ record, state.Holds process rid record tag ∧ Expects coordinator record

namespace LinkedUpTo

/-- A new handler leaves those of other tags. -/
theorem holds_asyncRPC {other process' tag' : Nat} {args : RpcArgs}
    (apart : ∀ process, Apart (state.rpcClients process))
    (differs : process' ≠ process ∨ tag' ≠ tag)
    (holds : state.Holds process' other record (some tag')) :
    RpcSystem.Holds
      { state with
        rpcClients := Function.update state.rpcClients process
          ((state.rpcClients process).asyncRPC tag args) } process' other record (some tag') := by
  obtain ⟨address, mapped, live⟩ := holds
  by_cases same : process' = process
  · subst same
    have below := (apart process').allocated _ _ mapped
    refine ⟨address, ?_, ?_⟩
    · simpa [GRPCClient.asyncRPC, differs.resolve_left (not_not.2 rfl)] using mapped
    · simpa [GRPCClient.asyncRPC, below.ne] using live
  · exact ⟨address, by simpa [same] using mapped, by simpa [same] using live⟩

/-- One more call, which leaves the records of the earlier ones. -/
theorem extend {number : Nat} {later : RpcSystem} (linked : LinkedUpTo state number)
    (same : later.system = state.system) (apart : ∀ process, Apart (later.rpcClients process))
    (kept : ∀ rid ≤ number, ∀ id tag process coordinator record,
      state.system.calls rid = some ⟨id, tag⟩ →
      state.system.coordinators id = some (process, coordinator) →
      state.Holds process rid record tag → later.Holds process rid record tag)
    (new : ∀ id tag process coordinator, state.system.calls (number + 1) = some ⟨id, tag⟩ →
      state.system.coordinators id = some (process, coordinator) →
      ∃ record, later.Holds process (number + 1) record tag ∧ Expects coordinator record) :
    LinkedUpTo later (number + 1) := by
  refine ⟨apart, fun rid below id tag process coordinator call present => ?_⟩
  rw [same] at call present
  by_cases isNew : rid = number + 1
  · subst isNew
    exact new id tag process coordinator call present
  · have earlier : rid ≤ number := by omega
    obtain ⟨record, holds, expects⟩ :=
      linked.records rid earlier id tag process coordinator call present
    exact ⟨record, kept rid earlier id tag process coordinator record call present holds, expects⟩

theorem post {number : Nat} (linked : LinkedUpTo state number)
    (consistent : Consistent state.system)
    (own : ∀ call, state.system.calls (number + 1) = some call →
      (state.system.coordinators call.coordinator).map (·.1) = some process ∧
        state.system.requests (number + 1) ≠ none) :
    LinkedUpTo (RpcSystem.post process state (number + 1)) (number + 1) := by
  have tags := consistent.orderly.tags
  cases called : state.system.calls (number + 1) with
  | none =>
      rw [show RpcSystem.post process state (number + 1) = state by simp [RpcSystem.post, called]]
      exact linked.extend rfl linked.apart (fun _ _ _ _ _ _ _ _ _ holds => holds)
        (by simp [called])
  | some call =>
      obtain ⟨id, tag⟩ := call
      obtain ⟨inProcess, isRequested⟩ := own _ called
      obtain ⟨request, requested⟩ := Option.ne_none_iff_exists'.1 isRequested
      obtain ⟨⟨process', coordinator⟩, present, rfl⟩ := Option.map_eq_some_iff.1 inProcess
      have expects := (consistent.agrees _ _ _ present).expects_recordOf called requested
      cases tag with
      | none =>
          have posted : RpcSystem.post process' state (number + 1) =
              { state with
                records := Function.update state.records (number + 1)
                  (some (recordOf request)) } := by
            simp [RpcSystem.post, called, requested]
          rw [posted]
          refine linked.extend rfl linked.apart ?_ ?_
          · intro rid below other tag process'' coordinator' record call present' holds
            have differs : rid ≠ number + 1 := by omega
            cases tag with
            | none => simpa [RpcSystem.Holds, differs] using holds
            | some tag => exact holds
          · intro other tag process'' coordinator' call present'
            obtain ⟨rfl, rfl⟩ : id = other ∧ none = tag := by simpa [called] using call
            obtain ⟨rfl, rfl⟩ : process' = process'' ∧ coordinator = coordinator' := by
              simpa [present] using present'
            exact ⟨_, by simp [RpcSystem.Holds], expects⟩
      | some tag =>
          have posted : RpcSystem.post process' state (number + 1) =
              { state with
                rpcClients := Function.update state.rpcClients process'
                  ((state.rpcClients process').asyncRPC tag (recordOf request)) } := by
            simp [RpcSystem.post, called, requested]
          rw [posted]
          refine linked.extend rfl (fun other => ?_) ?_ ?_
          · by_cases here : other = process'
            · subst here
              simpa using (linked.apart other).asyncRPC tag (recordOf request)
            · simpa [here] using linked.apart other
          · intro rid below other tag' process'' coordinator' record call present' holds
            cases tag' with
            | none => exact holds
            | some tag' =>
                -- No two calls of a process have the same tag.
                refine holds_asyncRPC linked.apart ?_ holds
                by_contra both
                obtain ⟨rfl, rfl⟩ := by simpa [not_or] using both
                have same := tags _ _ _ _ _ _ _ _ call called present' present
                omega
          · intro other tag' process'' coordinator' call present'
            obtain ⟨rfl, rfl⟩ : id = other ∧ some tag = tag' := by simpa [called] using call
            obtain ⟨rfl, rfl⟩ : process' = process'' ∧ coordinator = coordinator' := by
              simpa [present] using present'
            exact ⟨_, ⟨(state.rpcClients process').allocated, by simp [GRPCClient.asyncRPC],
              by simp [GRPCClient.asyncRPC]⟩, expects⟩

theorem foldl_post {number : Nat} (linked : LinkedUpTo state number) (process count : Nat)
    (consistent : Consistent state.system)
    (own : ∀ rid, number < rid → ∀ call, state.system.calls rid = some call →
      (state.system.coordinators call.coordinator).map (·.1) = some process ∧
        state.system.requests rid ≠ none) :
    LinkedUpTo ((List.range' (number + 1) count).foldl (RpcSystem.post process) state)
      (number + count) := by
  induction count generalizing number state with
  | zero => exact linked
  | succ count ih =>
      rw [List.range'_succ, List.foldl_cons]
      have posted := linked.post consistent (own _ (Nat.lt_succ_self _))
      have rest := ih posted
        ((RpcSystem.post_system process state (number + 1)).1 ▸ consistent) (by
          rw [(RpcSystem.post_system process state (number + 1)).1]
          exact fun rid above => own rid (by omega))
      rwa [show number + (count + 1) = number + 1 + count by omega]

end LinkedUpTo

/-! ## Calls and turns -/

/-- The Coordinator that a step is a call or a turn of. -/
def Label.actor : Label → Option Nat
  | .read id _ | .write id _ _ | .commit id | .abort id | .turn id => some id
  | .start _ _ _ | .receive _ _ | .handle _ _ _ => none

/-- What a Coordinator does to the rest of the system when it is called or goes on. -/
structure Acts (system : System) (id process : Nat) (system' : System) : Prop where
  others : ∀ other, other ≠ id → system'.coordinators other = system.coordinators other
  own : (system'.coordinators id).map (·.1) = some process
  sent : system.sent ≤ system'.sent
  calls : ∀ rid ≤ system.sent, system'.calls rid = system.calls rid
  asked : ∀ rid, system.sent < rid → ∀ call, system'.calls rid = some call →
    rid ≤ system'.sent ∧ call.coordinator = id ∧ system'.requests rid ≠ none

/-- Sending messages adds calls, each with its request. -/
theorem send_calls (id : Nat) (messages : List Message) (system : System) :
    (System.send id messages system).coordinators = system.coordinators ∧
      system.sent ≤ (System.send id messages system).sent ∧
      (∀ rid ≤ system.sent, (System.send id messages system).calls rid = system.calls rid ∧
        (System.send id messages system).requests rid = system.requests rid) ∧
      ∀ rid, system.sent < rid → ∀ call, (System.send id messages system).calls rid = some call →
        system.calls rid = some call ∨ rid ≤ (System.send id messages system).sent ∧
          call.coordinator = id ∧ (System.send id messages system).requests rid ≠ none := by
  induction messages generalizing system with
  | nil => exact ⟨rfl, le_rfl, fun _ _ => ⟨rfl, rfl⟩, fun _ _ _ same => .inl same⟩
  | cons message messages ih =>
      obtain ⟨coordinators, more, old, new⟩ := ih
        { system with
          calls := Function.update system.calls (system.sent + 1) (some ⟨id, message.tag⟩)
          requests :=
            Function.update system.requests (system.sent + 1) (some message.request)
          sent := system.sent + 1 }
      refine ⟨coordinators, (Nat.le_succ _).trans more, fun rid below => ?_,
        fun rid above call called => ?_⟩
      · obtain ⟨calls, requests⟩ := old rid (Nat.le_succ_of_le below)
        have differs : rid ≠ system.sent + 1 := by omega
        exact ⟨calls.trans (by simp [differs]), requests.trans (by simp [differs])⟩
      · by_cases first : rid = system.sent + 1
        · subst first
          obtain ⟨calls, requests⟩ := old (system.sent + 1) le_rfl
          obtain rfl : ⟨id, message.tag⟩ = call := by
            simpa using calls.symm.trans called
          exact .inr ⟨more, rfl, by rw [System.send, requests]; simp⟩
        · refine (new rid (show system.sent + 1 < rid by omega) call called).imp_left
            fun same => ?_
          simpa [first] using same

theorem Acts.of_send (messages : List Message) (orderly : Orderly system) :
    Acts system id process
      (System.send id messages (system.setCoordinator id process client coordinator)) := by
  obtain ⟨coordinators, more, old, new⟩ :=
    send_calls id messages (system.setCoordinator id process client coordinator)
  refine ⟨fun other differs => ?_, ?_, more, fun rid below => (old rid below).1,
    fun rid above call called => ?_⟩
  · rw [coordinators]
    simp [System.setCoordinator, differs]
  · rw [coordinators]
    simp [System.setCoordinator]
  · refine (new rid above call called).resolve_left fun present => ?_
    have := (orderly.calls rid call.coordinator call.tag present).1
    omega

/-- A Coordinator between two calls waits for nothing. -/
theorem Consistent.of_ready (consistent : Consistent system)
    (ready : system.readyCoordinator id = .ok (process, coordinator)) :
    system.coordinators id = some (process, coordinator) ∧ system.Silent id := by
  obtain ⟨present, control⟩ := readyCoordinator_eq_ok ready
  have agrees := consistent.agrees _ _ _ present
  simp only [Agrees, control] at agrees
  exact ⟨present, agrees.2⟩

theorem Consistent.acts (consistent : Consistent system) (actor : label.actor = some id)
    (stepped : system.step getNode label = .ok system') :
    ∃ process coordinator, system.coordinators id = some (process, coordinator) ∧
      system.Silent id ∧ Acts system id process system' := by
  have orderly := consistent.orderly
  cases label with
  | start | receive | handle => simp [Label.actor] at actor
  | read other key =>
      obtain rfl : other = id := by simpa [Label.actor] using actor
      obtain ⟨⟨process, coordinator⟩, ready, stepped⟩ := exists_of_bind stepped
      obtain ⟨present, silent⟩ := consistent.of_ready ready
      obtain rfl := Except.ok.inj stepped
      exact ⟨process, coordinator, present, silent, .of_send _ orderly⟩
  | write other key value =>
      obtain rfl : other = id := by simpa [Label.actor] using actor
      obtain ⟨⟨process, coordinator⟩, ready, stepped⟩ := exists_of_bind stepped
      obtain ⟨present, silent⟩ := consistent.of_ready ready
      obtain rfl := Except.ok.inj stepped
      exact ⟨process, coordinator, present, silent, .of_send _ orderly⟩
  | commit other | abort other =>
      obtain rfl : other = id := by simpa [Label.actor] using actor
      obtain ⟨⟨process, coordinator⟩, ready, stepped⟩ := exists_of_bind stepped
      obtain ⟨present, silent⟩ := consistent.of_ready ready
      obtain rfl := Except.ok.inj stepped
      exact ⟨process, coordinator, present, silent, .of_send [] orderly⟩
  | turn other =>
      obtain rfl : other = id := by simpa [Label.actor] using actor
      rw [System.step] at stepped
      split at stepped
      · exact absurd stepped (by simp)
      · next process coordinator present =>
          split at stepped
          · exact absurd stepped (by simp)
          · next client coordinator' messages turned =>
              obtain rfl := Except.ok.inj stepped
              refine ⟨process, coordinator, present, ?_, .of_send _ consistent.orderly⟩
              have agrees := consistent.agrees _ _ _ present
              unfold Coordinator.turn at turned
              split at turned
              · next committing loop control =>
                  simp only [Agrees, control] at agrees
                  split at turned
                  · exact absurd turned (by simp)
                  · next idle => exact (agrees.2.head (not_not.1 idle)).1
              · next committing vote loop control =>
                  simp only [Agrees, control] at agrees
                  split at turned
                  · exact absurd turned (by simp)
                  · next idle => exact (InRound.head agrees (not_not.1 idle)).1
              · exact absurd turned (by simp)

namespace Linked

/-- A call or a turn is a step of the system, with RPCs for what it sends. -/
theorem act (linked : Linked state) (permitted : DistinctIds state.system label)
    (actor : label.actor = some id) (stepped : state.act getNode id label = .ok state') :
    state.system.step getNode label = .ok state'.system ∧ Linked state' := by
  unfold RpcSystem.act at stepped
  split at stepped
  · exact absurd stepped (by simp)
  · next process _ present =>
      split at stepped
      · exact absurd stepped (by simp)
      · obtain ⟨system', stepped', outcome⟩ := exists_of_bind stepped
        obtain rfl := Except.ok.inj outcome
        have same := (RpcSystem.goOn_system process state system').1
        refine ⟨stepped'.trans (congrArg Except.ok same.symm), ?_⟩
        have consistent := linked.consistent.step permitted stepped'
        obtain ⟨process', coordinator, present', silent, acts⟩ :=
          linked.consistent.acts actor stepped'
        obtain ⟨rfl, -⟩ : process = process' ∧ _ := by simpa [present'] using present.symm
        -- The Coordinator has no call, and the calls of the others are as they were.
        have before : LinkedUpTo { state with system := system' } state.system.sent := by
          refine ⟨linked.apart, fun rid below other tag process' coordinator' call present => ?_⟩
          have call' : state.system.calls rid = some ⟨other, tag⟩ :=
            (acts.calls rid below).symm.trans call
          have differs : other ≠ id := by
            rintro rfl
            exact silent rid tag call'
          exact linked.records rid other tag process' coordinator' call'
            ((acts.others other differs).symm.trans present)
        have after := before.foldl_post process (system'.sent - state.system.sent) consistent
          fun rid above call called => by
            obtain ⟨-, rfl, requested⟩ := acts.asked rid above call called
            exact ⟨acts.own, requested⟩
        refine ⟨by rwa [same], after.apart,
          fun rid other tag process' coordinator' call present => ?_⟩
        have within := (consistent.orderly.calls rid other tag (same ▸ call)).1
        have more := acts.sent
        exact after.records rid (by omega) other tag process' coordinator' call present

/-! ## Replies -/

/-- The system after a Coordinator has collected the reply to a message. -/
def after (state : RpcSystem) (id process rid : Nat)
    (outcome : SimpleResolutionClient × Coordinator) : System :=
  (state.system.setCoordinator id process outcome.1 outcome.2).collected rid

theorem deliver_eq {outcome : SimpleResolutionClient × Coordinator}
    (received : coordinator.receive (state.system.processes process).client (replyOf record) =
      some outcome) :
    state.deliver id process rid coordinator record =
      .ok { state with system := after state id process rid outcome } := by
  simp only [RpcSystem.deliver, received]
  rfl

/-- The Coordinator that collects a reply, its call and its record. -/
theorem exists_record {call : Call} (linked : Linked state)
    (present : state.system.coordinators id = some (process, coordinator))
    (called : state.system.calls rid = some call)
    (awaits : state.system.awaits process id coordinator rid = true) :
    call.coordinator = id ∧ coordinator.awaits = some call.tag ∧
      ∃ record, state.Holds process rid record call.tag ∧ Expects coordinator record := by
  obtain ⟨tag, underway, -⟩ := linked.consistent.underway_of_awaits present awaits
  obtain rfl : ⟨id, tag⟩ = call := by simpa [underway] using called
  refine ⟨rfl, ?_, linked.records rid id tag process coordinator underway present⟩
  simp only [System.awaits, underway] at awaits
  cases tag with
  | none => exact (of_decide_eq_true awaits).2
  | some tag => exact (of_decide_eq_true awaits).2

/-- The RPC clients after one of them has awaited the reply to a message. -/
structure Awaited (state : RpcSystem) (rid : Nat) (rpcClients : Nat → GRPCClient) : Prop where
  apart : ∀ process, Apart (rpcClients process)
  holds : ∀ other ≠ rid, ∀ id tag process coordinator record,
    state.system.calls other = some ⟨id, tag⟩ →
    state.system.coordinators id = some (process, coordinator) →
    state.Holds process other record tag →
    RpcSystem.Holds { state with rpcClients := rpcClients } process other record tag

/-- A handler that has been awaited is left to its own tag. -/
theorem awaited_of_wait {address : Nat} (linked : Linked state)
    (present : state.system.coordinators id = some (process, coordinator))
    (called : state.system.calls rid = some ⟨id, some tag⟩)
    (mapped : (state.rpcClients process).tagToHandler tag = some (some address))
    (handler : Client.RequestHandler) :
    Awaited state rid (Function.update state.rpcClients process
      { state.rpcClients process with
        tagToHandler := Function.update (state.rpcClients process).tagToHandler tag (some none)
        handlers :=
          Function.update (state.rpcClients process).handlers address (some handler) }) := by
  have apart := linked.apart process
  refine ⟨fun other => ?_, fun other differs id' tag' process' coordinator' record call present'
    holds => ?_⟩
  · by_cases here : other = process
    · subst here
      rw [Function.update_self]
      have old : ∀ tag' address', Function.update (state.rpcClients other).tagToHandler tag
          (some none) tag' = some (some address') →
          (state.rpcClients other).tagToHandler tag' = some (some address') := by
        intro tag' address' mapped'
        by_cases same : tag' = tag
        · simp [same] at mapped'
        · simpa [same] using mapped'
      exact ⟨fun tag' address' mapped' => apart.allocated _ _ (old _ _ mapped'),
        fun one two address' mapped₁ mapped₂ =>
          apart.distinct _ _ _ (old _ _ mapped₁) (old _ _ mapped₂)⟩
    · simpa [here] using linked.apart other
  · cases tag' with
    | none => exact holds
    | some tag' =>
        obtain ⟨address', mapped', live⟩ := holds
        by_cases here : process' = process
        · subst here
          have apartTags : tag' ≠ tag := by
            rintro rfl
            exact differs (linked.consistent.orderly.tags _ _ _ _ _ _ _ _ call called present'
              present)
          have apartAddresses : address' ≠ address := by
            rintro rfl
            exact apartTags (apart.distinct _ _ _ mapped' mapped)
          exact ⟨address', by simpa [apartTags] using mapped',
            by simpa [apartAddresses] using live⟩
        · exact ⟨address', by simpa [here] using mapped', by simpa [here] using live⟩

/--
The reply is delivered as the server has given it: the Coordinator receives the
record of the call once the reply has been filled in, if it is of its kind.
-/
theorem delivers {process : Nat} (expects : Expects coordinator record)
    (returned : (serviceOf reply).answers record = true → ∃ rpcClients,
      Awaited state rid rpcClients ∧ state.receive id rid =
        RpcSystem.deliver { state with rpcClients := rpcClients } id process rid coordinator
          (proceed (serviceOf reply) record))
    (unanswered : (serviceOf reply).answers record = false →
      state.receive id rid = .error .disabled) :
    (∀ outcome, coordinator.receive (state.system.processes process).client reply =
      some outcome → ∃ rpcClients, Awaited state rid rpcClients ∧
        state.receive id rid = .ok
          { state with
            rpcClients := rpcClients
            system := after state id process rid outcome }) ∧
      (coordinator.receive (state.system.processes process).client reply = none →
        state.receive id rid = .error .disabled) := by
  constructor
  · intro outcome received
    have answered := answers_of_receive expects received
    obtain ⟨rpcClients, awaited, steps⟩ := returned answered
    exact ⟨rpcClients, awaited,
      steps.trans (deliver_eq ((receive_replyOf expects answered).trans received))⟩
  · intro none'
    cases answered : (serviceOf reply).answers record with
    | false => exact unanswered answered
    | true =>
        obtain ⟨rpcClients, -, steps⟩ := returned answered
        rw [← receive_replyOf expects answered] at none'
        rw [steps]
        simp only [RpcSystem.deliver, none']

/-- The reply is delivered as the server has given it, unless the process dies of it. -/
theorem receive_eq {call : Call} (linked : Linked state)
    (present : state.system.coordinators id = some (process, coordinator))
    (called : state.system.calls rid = some call)
    (replied : state.system.server.replies rid = some reply)
    (alive : state.crashed process = false)
    (awaits : state.system.awaits process id coordinator rid = true) :
    if readsValue coordinator reply then state.receive id rid = .ok (state.crash process)
    else
      (∀ outcome, coordinator.receive (state.system.processes process).client reply =
        some outcome → ∃ rpcClients, Awaited state rid rpcClients ∧
          state.receive id rid = .ok
            { state with
              rpcClients := rpcClients
              system := after state id process rid outcome }) ∧
        (coordinator.receive (state.system.processes process).client reply = none →
          state.receive id rid = .error .disabled) := by
  obtain ⟨rfl, waits, record, holds, expects⟩ := linked.exists_record present called awaits
  obtain ⟨id, tag⟩ := call
  cases tag with
  | none =>
      have recorded : state.records rid = some record := holds
      have returned : syncRPC (serviceOf reply) record = _ := syncRPC_eq expects waits
      by_cases value : readsValue coordinator reply = true
      · rw [if_pos value] at returned ⊢
        simp [RpcSystem.receive, present, called, replied, alive, awaits, recorded, returned]
      · rw [if_neg value] at returned ⊢
        refine delivers expects (fun answered => ⟨state.rpcClients,
          ⟨linked.apart, fun _ _ _ _ _ _ _ _ _ holds => holds⟩, ?_⟩) fun unanswered => ?_
        · simp [RpcSystem.receive, present, called, replied, alive, awaits, recorded, returned,
            answered]
        · simp [RpcSystem.receive, present, called, replied, alive, awaits, recorded, returned,
            unanswered]
  | some tag =>
      have reads : readsValue coordinator reply = false := by
        unfold readsValue
        split
        · next control => simp [Coordinator.awaits, control] at waits
        · rfl
      rw [reads, if_neg Bool.false_ne_true]
      obtain ⟨address, mapped, live⟩ := holds
      have waited : (state.rpcClients process).waitAsyncReply (serviceOf reply) tag = _ :=
        Tracking.waitAsyncReply_eq mapped live
      refine delivers expects (fun answered => ⟨_, linked.awaited_of_wait present called mapped
        ⟨proceed (serviceOf reply) record, true⟩, ?_⟩) fun unanswered => ?_
      · rw [if_neg (by simp), answered, if_pos rfl] at waited
        simp [RpcSystem.receive, present, called, replied, alive, awaits, waited]
      · simp [RpcSystem.receive, present, called, replied, alive, awaits, waited, unanswered]

/-- A Coordinator collects a reply as in the system, or its process dies of it. -/
theorem receive (linked : Linked state) (stepped : state.receive id rid = .ok state') :
    (∃ process, state' = state.crash process) ∨
      state.system.step getNode (.receive id rid) = .ok state'.system ∧ Linked state' := by
  have whole := stepped
  unfold RpcSystem.receive at whole
  split at whole
  · next process coordinator call reply present called replied =>
      split at whole
      · exact absurd whole (by simp)
      · next alive =>
          split at whole
          · next awaits =>
              clear whole
              have returned := linked.receive_eq present called replied (by simpa using alive)
                awaits
              split at returned
              · exact .inl ⟨process, Except.ok.inj (stepped.symm.trans returned)⟩
              · refine .inr ?_
                obtain ⟨some', none'⟩ := returned
                cases received :
                    coordinator.receive (state.system.processes process).client reply with
                | none => exact absurd (stepped.symm.trans (none' received)) (by simp)
                | some outcome =>
                    obtain ⟨rpcClients, awaited, returned⟩ := some' outcome received
                    obtain rfl := Except.ok.inj (stepped.symm.trans returned)
                    have inSystem : state.system.step getNode (.receive id rid) =
                        .ok (after state id process rid outcome) := by
                      simp only [System.step, present, replied, awaits, received, if_true]
                      rfl
                    refine ⟨inSystem, linked.consistent.receive inSystem, awaited.apart, ?_⟩
                    intro other id' tag process' coordinator' call present'
                    obtain ⟨differs, call'⟩ := calls_collected call
                    have stored : (state.system.setCoordinator id process outcome.1
                      outcome.2).coordinators id' = some (process', coordinator') := present'
                    rcases coordinators_setCoordinator stored with ⟨rfl, -, -⟩ | ⟨-, old⟩
                    · obtain ⟨_, underway⟩ := linked.consistent.underway_of_awaits present awaits
                      exact absurd (underway.2 other tag call') differs
                    · obtain ⟨record, holds, expects⟩ :=
                        linked.records other id' tag process' coordinator' call' old
                      exact ⟨record, awaited.holds other differs id' tag process' coordinator'
                        record call' old holds, expects⟩
          · exact absurd whole (by simp)
  · exact absurd whole (by simp)

theorem crash (linked : Linked state) (process : Nat) : Linked (state.crash process) :=
  ⟨linked.consistent, linked.apart, linked.records⟩

/-- A step is one of the system, or the reply to a message at which a process dies. -/
theorem step (linked : Linked state) (permitted : DistinctIds state.system label)
    (stepped : state.step getNode label = .ok state') :
    Linked state' ∧ (state.system.step getNode label = .ok state'.system ∨
      state'.system = state.system ∧ ∃ id rid, label = .receive id rid) := by
  have acted : ∀ {id}, label.actor = some id → state.act getNode id label = .ok state' →
      Linked state' ∧ (state.system.step getNode label = .ok state'.system ∨
        state'.system = state.system ∧ ∃ id rid, label = .receive id rid) :=
    fun actor stepped =>
      have ⟨inSystem, linked'⟩ := linked.act permitted actor stepped
      ⟨linked', .inl inSystem⟩
  cases label with
  | read | write | commit | abort | turn => exact acted rfl stepped
  | receive id rid =>
      rcases linked.receive stepped with ⟨process, rfl⟩ | ⟨inSystem, linked'⟩
      · exact ⟨linked.crash process, .inr ⟨rfl, id, rid, rfl⟩⟩
      · exact ⟨linked', .inl inSystem⟩
  | start process tid startTs =>
      rw [RpcSystem.step] at stepped
      split at stepped
      · exact absurd stepped (by simp)
      · obtain ⟨system', inSystem, outcome⟩ := exists_of_bind stepped
        obtain rfl := Except.ok.inj outcome
        refine ⟨⟨linked.consistent.step permitted inSystem, linked.apart,
          fun rid id tag process' coordinator call present => ?_⟩, .inl inSystem⟩
        obtain rfl := Except.ok.inj inSystem
        obtain ⟨-, process'', coordinator', present', -⟩ :=
          linked.consistent.orderly.calls rid id tag call
        have old := linked.consistent.orderly.created id (by simp [present'])
        exact linked.records rid id tag process' coordinator call
          (by simpa [old.ne] using present)
  | handle rid event unset =>
      obtain ⟨system', inSystem, outcome⟩ := exists_of_bind stepped
      obtain rfl := Except.ok.inj outcome
      refine ⟨⟨linked.consistent.step permitted inSystem, linked.apart, ?_⟩, .inl inSystem⟩
      rw [System.step] at inSystem
      split at inSystem
      · split at inSystem
        · exact absurd inSystem (by simp)
        · obtain rfl := Except.ok.inj inSystem
          exact linked.records
      · exact absurd inSystem (by simp)

end Linked

/-! ## Runs -/

/-- Every run with RPC clients is a run of the system, with the same calls. -/
theorem exists_system_of_trace {permitted : System → Label → Prop}
    (ids : ∀ system label, permitted system label → DistinctIds system label)
    (trace : Trace (RpcSystem.step getNode) (fun state label => permitted state.system label)
      (.first .initial) labels state) :
    ∃ labels', Trace (System.step getNode) permitted (.first .initial) labels' state.system ∧
      (∀ id, requested labels' id = requested labels id) ∧ Linked state := by
  obtain ⟨labels', system, trace', rfl, same, linked⟩ := trace.simulated
    (fun labels state labels' system => system = state.system ∧
      (∀ id, requested labels' id = requested labels id) ∧ Linked state)
    (show _ ∧ _ ∧ _ from ⟨rfl, fun _ => rfl, .first⟩) (by
      rintro labels state label state' labels' _ ⟨rfl, same, linked⟩ allowed stepped
      obtain ⟨linked', inSystem | ⟨still, id, rid, rfl⟩⟩ := linked.step (ids _ _ allowed) stepped
      · exact ⟨[label], state'.system, Trace.tail .refl allowed inSystem, rfl,
          fun id => by rw [requested_append, requested_append, same], linked'⟩
      · exact ⟨[], state.system, .refl, still.symm,
          fun other => by simp [requested_append, same, Label.operation], linked'⟩)
  exact ⟨labels', trace', same, linked⟩

/-- A run is known by the calls that are made in it. -/
theorem Refines.congr {labels' : List Label} {moves : List Move} {world : World}
    {names : Equiv.Perm Nat} (refines : Refines labels' system moves world names)
    (same : ∀ id, requested labels' id = requested labels id) :
    Refines labels system moves world names :=
  { refines with
    follows := fun id process coordinator present => by
      rw [← same]
      exact refines.follows id process coordinator present
    absent := fun id none' => by
      rw [← same]
      exact refines.absent id none' }

/--
Every run of clients and server, in whatever order the messages and the replies
arrive and whichever processes die, is a run in which every request is made and
handled in one step: the one server is the other up to the numbers of the
requests, and every transaction has done what its Coordinator has asked for, but
for a request that is still on its way.  A reply that can be collected is
delivered as the server has given it, except that a process dies of a read that
is answered with a value.
-/
theorem exists_world_of_trace
    (trace : Trace (RpcSystem.step getNode) (fun state label => DistinctIds state.system label)
      (.first .initial) labels state) :
    (∃ moves world names, Trace (World.step getNode) (fun _ _ => True) .first moves world ∧
      Refines labels state.system moves world names) ∧
    ∀ id rid process coordinator reply system',
      state.system.coordinators id = some (process, coordinator) →
      state.system.server.replies rid = some reply → state.crashed process = false →
      state.system.step getNode (.receive id rid) = .ok system' →
      ∃ state', state.step getNode (.receive id rid) = .ok state' ∧
        if readsValue coordinator reply then
          state'.system = state.system ∧ state'.crashed process = true
        else state'.system = system' ∧ state'.crashed = state.crashed := by
  obtain ⟨labels', trace', same, linked⟩ := exists_system_of_trace (fun _ _ ids => ids) trace
  constructor
  · obtain ⟨moves, world, traceWorld, names, refines⟩ :
        ∃ moves world, Trace (World.step getNode) (fun _ _ => True) .first moves world ∧
          ∃ names, Refines labels' state.system moves world names :=
      Refines.of_trace (fun _ _ distinct => distinct) (fun _ _ _ _ _ _ _ _ _ _ => trivial) trace'
    exact ⟨moves, world, names, traceWorld, refines.congr same⟩
  · intro id rid process coordinator reply system' present replied alive inSystem
    simp only [System.step, present, replied] at inSystem
    split at inSystem
    · next awaits =>
        split at inSystem
        · exact absurd inSystem (by simp)
        · next client coordinator' received =>
            obtain rfl := Except.ok.inj inSystem
            obtain ⟨tag, underway, -⟩ := linked.consistent.underway_of_awaits present awaits
            have returned := linked.receive_eq present underway replied alive awaits
            split at returned
            · next value =>
                exact ⟨_, returned, by simp [value, RpcSystem.crash]⟩
            · next value =>
                obtain ⟨rpcClients, -, returned⟩ := returned.1 _ received
                refine ⟨_, returned, ?_⟩
                rw [if_neg value]
                exact ⟨rfl, rfl⟩
    · exact absurd inSystem (by simp)

/--
A read overtakes a write that has been sent before it; the process of the reader
dies of the answer, and that of the writer goes on to the end of `commit`.
-/
theorem exists_world_of_trace_of_overtaking :
    ∃ (state : RpcSystem) (moves : List Move) (world : World) (names : Equiv.Perm Nat),
      state.crashed 0 = false ∧ state.crashed 1 = true ∧
      Trace (World.step getNode) (fun _ _ => True) .first moves world ∧
      Refines [.start 0 7 10, .start 1 8 20, .write 0 1 "a", .read 1 1, .handle 2 5 false,
        .handle 1 0 false, .receive 1 2, .receive 0 1, .commit 0, .turn 0, .handle 3 0 false,
        .receive 0 3, .turn 0, .turn 0, .handle 4 0 false, .receive 0 4, .turn 0]
        state.system moves world names := by
  obtain ⟨state, trace, holds⟩ := exists_trace_of_admits
    (fun (state : RpcSystem) label => DistinctIds state.system label)
    [.start 0 7 10, .start 1 8 20, .write 0 1 "a", .read 1 1, .handle 2 5 false,
      .handle 1 0 false, .receive 1 2, .receive 0 1, .commit 0, .turn 0, .handle 3 0 false,
      .receive 0 3, .turn 0, .turn 0, .handle 4 0 false, .receive 0 4, .turn 0]
    (fun state => !state.crashed 0 && state.crashed 1)
    (show admits (RpcSystem.step getNode) _ (.first .initial) _ = true by decide)
    (show ends (RpcSystem.step getNode) _ (.first .initial) _ = true by decide)
  obtain ⟨⟨moves, world, names, traceWorld, refines⟩, -⟩ := exists_world_of_trace trace
  obtain ⟨alive, dead⟩ := by simpa using holds
  exact ⟨state, moves, world, names, alive, dead, traceWorld, refines⟩

end Mvtx.Cluster
