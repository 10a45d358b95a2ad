import Mvtx.Cluster.System

/-!
# What a Coordinator and the server agree on

The resolution client knows of one address only, so every round of a Coordinator
is one message.  `Agrees` says for every place where a Coordinator can be what
has become of its message and what the server has recorded for its transaction.
It only reads the calls of that Coordinator, their requests and replies, and the
two entries of its transaction, so the steps of the others do not disturb it.
-/

namespace Mvtx.Client

open Lib Lock Server

/-- The client has resolved nodes to the one address only. -/
def SimpleResolutionClient.Cached (client : SimpleResolutionClient) : Prop :=
  ∀ node address, client.nodeToAddress node = some address → address = "0.0.0.0:10000"

namespace SimpleResolutionClient

variable {client : SimpleResolutionClient}

theorem Cached.initial : Cached initial := by
  intro node address known
  simp [SimpleResolutionClient.initial] at known

theorem Cached.invalidateAddresses (cached : client.Cached) (nodes : Finset Nat) :
    (client.invalidateAddresses nodes).Cached := by
  intro node address known
  simp only [SimpleResolutionClient.invalidateAddresses] at known
  split at known
  · exact absurd known (by simp)
  · exact cached node address known

/-- Finding addresses changes the cache only. -/
theorem Cached.findAddresses (cached : client.Cached) (nodes : List Nat)
    {addresses : List String}
    (found : addresses = ["0.0.0.0:10000"] ∨ nodes ≠ [] ∧ addresses = []) :
    (client.findAddresses nodes addresses).1.Cached ∧
      (client.findAddresses nodes addresses).1.tag = client.tag ∧
      (client.findAddresses nodes addresses).2 = ["0.0.0.0:10000"] := by
  induction nodes generalizing client addresses with
  | nil =>
      obtain rfl := found.resolve_right fun none => none.1 rfl
      exact ⟨cached, rfl, rfl⟩
  | cons node nodes ih =>
      have same : (client.nodeToAddress node).getD "0.0.0.0:10000" = "0.0.0.0:10000" := by
        cases known : client.nodeToAddress node with
        | none => rfl
        | some address => exact cached node address known
      have inserted : insertAddress "0.0.0.0:10000" addresses = ["0.0.0.0:10000"] := by
        rcases found with rfl | ⟨-, rfl⟩
        · simp [insertAddress]
        · simp [insertAddress]
      rw [SimpleResolutionClient.findAddresses, same, inserted]
      refine ih (fun other address known => ?_) (.inl rfl)
      by_cases here : other = node
      · subst here
        simpa using known.symm
      · exact cached other address (by simpa [here] using known)

end SimpleResolutionClient

open SimpleResolutionClient

variable {client : SimpleResolutionClient}

/-- A synchronous request is one message. -/
theorem sendSync_eq (cached : client.Cached) (node : Nat) (request : Request) :
    ∃ client', Coordinator.sendSync client node request =
        (client', [⟨"0.0.0.0:10000", none, request⟩]) ∧
      client'.Cached ∧ client'.tag = client.tag := by
  obtain ⟨cached', tag, one⟩ := cached.findAddresses [node] (.inr ⟨by simp, rfl⟩)
  exact ⟨_, by simp [Coordinator.sendSync, one], cached', tag⟩

/-- A synchronous request that has been turned down keeps the cache. -/
theorem turnedDown_eq (cached : client.Cached) (node : Nat) :
    (Coordinator.turnedDown client node).Cached ∧
      (Coordinator.turnedDown client node).tag = client.tag := by
  obtain ⟨cached', tag, -⟩ :=
    (cached.invalidateAddresses {node}).findAddresses [node] (.inr ⟨by simp, rfl⟩)
  exact ⟨cached', tag⟩

/-- The first round of a loop is one message. -/
theorem sendRound_start (cached : client.Cached) {nodes : Finset Nat}
    (nonempty : nodes ≠ ∅) (few : client.tag < 2147483648) :
    ∃ client', ((RoundLoop.start nodes).sendRound client) =
      (client',
        { RoundLoop.start nodes with
          addresses := ["0.0.0.0:10000"]
          awaited := ["0.0.0.0:10000"]
          tag := client.tag
          rounds := 1 },
        [("0.0.0.0:10000", client.tag)]) ∧
      client'.Cached ∧ client'.tag = client.tag + 1 := by
  have some_node : ascending nodes ≠ [] := by
    obtain ⟨node, member⟩ := Finset.nonempty_iff_ne_empty.2 nonempty
    exact List.ne_nil_of_mem (mem_ascending.2 member)
  obtain ⟨cached', tag, one⟩ :=
    cached.findAddresses (ascending nodes) (.inr ⟨some_node, rfl⟩)
  refine ⟨{ (client.findAddresses (ascending nodes) []).1 with tag := client.tag + 1 },
    ?_, cached', rfl⟩
  have next : uintSucc client.tag = client.tag + 1 :=
    uintSucc_eq (by unfold uintMax; omega)
  simp [RoundLoop.sendRound, RoundLoop.start, one, RoundLoop.number, RoundLoop.nextTag,
    tag, toInt_eq few, next]

end Mvtx.Client

namespace Mvtx.Cluster

open Lib Server Client

/-! ## Agreement -/

/-- A Coordinator waits for no message. -/
def System.Silent (system : System) (id : Nat) : Prop :=
  ∀ rid tag, system.calls rid ≠ some ⟨id, tag⟩

/-- A Coordinator waits for one message. -/
def System.Underway (system : System) (id : Nat) (tag : Option Nat) (rid : Nat) : Prop :=
  system.calls rid = some ⟨id, tag⟩ ∧
    ∀ rid' tag', system.calls rid' = some ⟨id, tag'⟩ → rid' = rid

/--
Where a loop of a Coordinator stands that sends `request` to some nodes.  The
server has to know the transaction to accept the request.
-/
inductive InRound (system : System) (id : Nat) (nodes : Finset Nat) (known : Prop)
    (request : Request) (lists : Reply → Prop) (loop : RoundLoop) : Prop where
  | before
      (begun : loop = .start nodes)
      (silent : system.Silent id)
      (expected : nodes.Nonempty → known)
  | asked
      {rid : Nat}
      (rounds : loop.rounds = 1)
      (awaited : loop.awaited = ["0.0.0.0:10000"])
      (within : loop.remNodes ⊆ {0})
      (underway : system.Underway id (some loop.tag) rid)
      (requested : system.requests rid = some request)
      (expected : known)
  | answered
      {rid : Nat}
      {reply : Reply}
      (rounds : loop.rounds = 1)
      (awaited : loop.awaited = ["0.0.0.0:10000"])
      (within : loop.remNodes ⊆ {0})
      (underway : system.Underway id (some loop.tag) rid)
      (taken : system.requests rid = none)
      (replied : system.server.replies rid = some reply)
      (listed : lists reply)
  | finished
      (rounds : loop.rounds = 1)
      (awaited : loop.awaited = [])
      (empty : loop.remNodes = ∅)
      (silent : system.Silent id)

/-- The replies of phase one that list the node. -/
def ListsOne : Reply → Prop
  | .p1c nodes _ => 0 ∈ nodes
  | _ => False

/-- The replies of phase two that list the node. -/
def ListsTwo : Reply → Prop
  | .p2c nodes => 0 ∈ nodes
  | _ => False

/-- What a Coordinator and the server agree on. -/
def Agrees (system : System) (id : Nat) (coordinator : Coordinator) : Prop :=
  let known := system.server.tidToNodes coordinator.tid ≠ none
  let knownWrite := system.server.tidToWriteNodes coordinator.tid ≠ none
  let expected :=
    ((coordinator.writeNodes ∪ coordinator.readNodes).Nonempty → known) ∧
      (coordinator.writeNodes.Nonempty → knownWrite)
  match coordinator.control with
  | .ready => expected ∧ system.Silent id
  | .reading key node =>
      expected ∧ node = 0 ∧ ∃ rid, system.Underway id none rid ∧
        (system.requests rid = some (.read coordinator.tid coordinator.startTs key) ∨
          system.requests rid = none ∧ known)
  | .writing node =>
      expected ∧ node = 0 ∧ ∃ rid, system.Underway id none rid ∧
        ((∃ key value, system.requests rid = some (.write coordinator.tid key value)) ∨
          system.requests rid = none ∧ known ∧ knownWrite)
  | .phaseOne _ loop =>
      ((coordinator.writeNodes ∪ coordinator.readNodes).Nonempty → known) ∧
        InRound system id coordinator.writeNodes knownWrite coordinator.p1cRequest ListsOne loop
  | .phaseTwo _ vote loop =>
      InRound system id (coordinator.writeNodes ∪ coordinator.readNodes) known
        (.p2c coordinator.tid vote) ListsTwo loop
  | .ended _ _ => system.Silent id

/-- What `Agrees` reads of the rest of the system is the same, or there is more of it. -/
structure Undisturbed (system system' : System) (id tid : Nat) : Prop where
  calls : ∀ rid tag, system'.calls rid = some ⟨id, tag⟩ ↔ system.calls rid = some ⟨id, tag⟩
  requests : ∀ rid tag, system.calls rid = some ⟨id, tag⟩ →
    system'.requests rid = system.requests rid
  replies : ∀ rid reply, system.server.replies rid = some reply →
    system'.server.replies rid = some reply
  known : system.server.tidToNodes tid ≠ none → system'.server.tidToNodes tid ≠ none
  knownWrite : system.server.tidToWriteNodes tid ≠ none →
    system'.server.tidToWriteNodes tid ≠ none

section Frame

variable {system system' : System} {id tid : Nat} {coordinator : Coordinator}

theorem Undisturbed.silent (same : Undisturbed system system' id tid)
    (silent : system.Silent id) : system'.Silent id :=
  fun rid tag call => silent rid tag ((same.calls rid tag).1 call)

theorem Undisturbed.underway (same : Undisturbed system system' id tid) {tag : Option Nat}
    {rid : Nat} (underway : system.Underway id tag rid) : system'.Underway id tag rid :=
  ⟨(same.calls rid tag).2 underway.1, fun rid' tag' call =>
    underway.2 rid' tag' ((same.calls rid' tag').1 call)⟩

theorem InRound.frame {nodes : Finset Nat} {known known' : Prop} {request : Request}
    {lists : Reply → Prop} {loop : RoundLoop}
    (stands : InRound system id nodes known request lists loop)
    (same : Undisturbed system system' id tid) (more : known → known') :
    InRound system' id nodes known' request lists loop := by
  cases stands with
  | before begun silent expected =>
      exact .before begun (same.silent silent) fun some => more (expected some)
  | asked rounds awaited within underway requested expected =>
      exact .asked rounds awaited within (same.underway underway)
        ((same.requests _ _ underway.1).trans requested) (more expected)
  | answered rounds awaited within underway taken replied listed =>
      exact .answered rounds awaited within (same.underway underway)
        ((same.requests _ _ underway.1).trans taken) (same.replies _ _ replied) listed
  | finished rounds awaited empty silent =>
      exact .finished rounds awaited empty (same.silent silent)

/-- The steps of the others do not disturb a Coordinator. -/
theorem Agrees.frame (agrees : Agrees system id coordinator)
    (same : Undisturbed system system' id coordinator.tid) :
    Agrees system' id coordinator := by
  unfold Agrees at agrees ⊢
  split at agrees
  · obtain ⟨⟨known, knownWrite⟩, silent⟩ := agrees
    exact ⟨⟨fun some => same.known (known some), fun some => same.knownWrite (knownWrite some)⟩,
      same.silent silent⟩
  · obtain ⟨⟨known, knownWrite⟩, node, rid, underway, requested⟩ := agrees
    refine ⟨⟨fun some => same.known (known some),
      fun some => same.knownWrite (knownWrite some)⟩, node, rid, same.underway underway, ?_⟩
    rw [same.requests _ _ underway.1]
    exact requested.imp_right fun ⟨taken, present⟩ => ⟨taken, same.known present⟩
  · obtain ⟨⟨known, knownWrite⟩, node, rid, underway, requested⟩ := agrees
    refine ⟨⟨fun some => same.known (known some),
      fun some => same.knownWrite (knownWrite some)⟩, node, rid, same.underway underway, ?_⟩
    rw [same.requests _ _ underway.1]
    exact requested.imp_right fun ⟨taken, present, presentWrite⟩ =>
      ⟨taken, same.known present, same.knownWrite presentWrite⟩
  · exact ⟨fun some => same.known (agrees.1 some), agrees.2.frame same same.knownWrite⟩
  · exact InRound.frame agrees same same.known
  · exact same.silent agrees

end Frame

end Mvtx.Cluster
