import Mvtx.Cluster.Consistent

/-!
# One round for each phase

With the shipped key mapper and distinct transaction IDs every request finds
the entry that it needs, so the server turns none down, and the reply to the
first message of a phase lists all that the phase still waits for.
-/

namespace Mvtx.Cluster

open Lib Server Client

variable {system system' : System} {id process rid : Nat} {coordinator : Coordinator}

/-! ## Handling a request -/

/-- A round has asked for what is under way. -/
theorem InRound.requested {nodes : Finset Nat} {known : Prop} {request request' : Request}
    {lists : Reply → Prop} {loop : RoundLoop} {tag : Option Nat}
    (stands : InRound system id nodes known request lists loop)
    (call : system.calls rid = some ⟨id, tag⟩) (requested : system.requests rid = some request') :
    request' = request ∧ known ∧ loop.rounds = 1 ∧ loop.awaited = ["0.0.0.0:10000"] ∧
      loop.remNodes ⊆ {0} ∧ system.Underway id (some loop.tag) rid := by
  cases stands with
  | before _ silent => exact absurd call (silent rid tag)
  | asked rounds awaited within underway requested' expected =>
      obtain rfl := underway.2 _ _ call
      obtain rfl := Option.some.inj (requested.symm.trans requested')
      exact ⟨rfl, expected, rounds, awaited, within, underway⟩
  | answered _ _ _ underway taken =>
      obtain rfl := underway.2 _ _ call
      exact absurd (requested.symm.trans taken) (by simp)
  | finished _ _ _ silent => exact absurd call (silent rid tag)

/-- The places from which a Coordinator has sent a request, and what the server knows then. -/
theorem Agrees.requested {tag : Option Nat} {request : Request}
    (agrees : Agrees system id coordinator) (call : system.calls rid = some ⟨id, tag⟩)
    (requested : system.requests rid = some request) :
    match request with
    | .read tid startTs key =>
        tid = coordinator.tid ∧ startTs = coordinator.startTs ∧
          coordinator.control = .reading key 0 ∧ tag = none
    | .write tid _ _ => tid = coordinator.tid ∧ coordinator.control = .writing 0 ∧ tag = none
    | .p1c _ _ _ _ _ =>
        request = coordinator.p1cRequest ∧
          system.server.tidToWriteNodes coordinator.tid ≠ none ∧
          ∃ committing loop, coordinator.control = .phaseOne committing loop ∧
            loop.rounds = 1 ∧ loop.awaited = ["0.0.0.0:10000"] ∧ loop.remNodes ⊆ {0} ∧
            system.Underway id (some loop.tag) rid
    | .p2c tid vote =>
        tid = coordinator.tid ∧ system.server.tidToNodes coordinator.tid ≠ none ∧
          ∃ committing loop, coordinator.control = .phaseTwo committing vote loop ∧
            loop.rounds = 1 ∧ loop.awaited = ["0.0.0.0:10000"] ∧ loop.remNodes ⊆ {0} ∧
            system.Underway id (some loop.tag) rid := by
  unfold Agrees at agrees
  split at agrees
  · exact absurd call (agrees.2 rid tag)
  · next key node control =>
      obtain ⟨-, rfl, rid', underway, state⟩ := agrees
      obtain rfl := underway.2 _ _ call
      rcases state with same | ⟨none', -⟩
      · obtain rfl := Option.some.inj (requested.symm.trans same)
        obtain ⟨-, rfl⟩ := by simpa using call.symm.trans underway.1
        exact ⟨rfl, rfl, control, rfl⟩
      · exact absurd (requested.symm.trans none') (by simp)
  · next node control =>
      obtain ⟨-, rfl, rid', underway, state⟩ := agrees
      obtain rfl := underway.2 _ _ call
      rcases state with ⟨key, value, same⟩ | ⟨none', -⟩
      · obtain rfl := Option.some.inj (requested.symm.trans same)
        obtain ⟨-, rfl⟩ := by simpa using call.symm.trans underway.1
        exact ⟨rfl, control, rfl⟩
      · exact absurd (requested.symm.trans none') (by simp)
  · next committing loop control =>
      obtain ⟨rfl, known, rest⟩ := agrees.2.requested call requested
      exact ⟨rfl, known, committing, loop, control, rest⟩
  · next committing vote loop control =>
      obtain ⟨rfl, known, rest⟩ := InRound.requested agrees call requested
      exact ⟨rfl, known, committing, loop, control, rest⟩
  · exact absurd call (agrees rid tag)

/-- A request that is under way finds the entry it needs. -/
theorem Agrees.accepts {tag : Option Nat} {request : Request}
    (agrees : Agrees system id coordinator) (call : system.calls rid = some ⟨id, tag⟩)
    (requested : system.requests rid = some request) (nodes : system.server.nodes = {0}) :
    request.tid = coordinator.tid ∧ ¬ system.server.Refuses getNode request := by
  have places := agrees.requested call requested
  cases request with
  | read => exact ⟨places.1, by simp [SimpleTServer.Refuses, nodes, getNode]⟩
  | write => exact ⟨places.1, by simp [SimpleTServer.Refuses, nodes, getNode]⟩
  | p1c tid =>
      have same : tid = coordinator.tid := congrArg Request.tid places.1
      exact ⟨same, same ▸ places.2.1⟩
  | p2c => exact ⟨places.1, places.1 ▸ places.2.1⟩

theorem handled_entries {server server' : SimpleTServer} {event : Nat} {unset : Bool}
    {request : Request} (handled : Handled getNode server rid event unset request server')
    (accepted : ¬ server.Refuses getNode request)
    (unlocked : server.tidMutex = false ∧ server.tidWriteMutex = false)
    (entries : ∀ tid nodes, server.tidToNodes tid = some nodes → 0 ∈ nodes)
    (writeEntries : ∀ tid nodes, server.tidToWriteNodes tid = some nodes → 0 ∈ nodes) :
    (server'.tidMutex = false ∧ server'.tidWriteMutex = false) ∧
      (∀ tid nodes, server'.tidToNodes tid = some nodes → 0 ∈ nodes) ∧
      ∀ tid nodes, server'.tidToWriteNodes tid = some nodes → 0 ∈ nodes := by
  have inserted : ∀ (map : Nat → Option (Finset Nat)) tid key,
      (∀ tid nodes, map tid = some nodes → 0 ∈ nodes) →
      ∀ other nodes, SimpleTServer.insertNode map tid (getNode key) other = some nodes → 0 ∈ nodes := by
    intro map tid key all other nodes present
    by_cases same : other = tid
    · subst same
      obtain rfl := by simpa [SimpleTServer.insertNode] using present
      exact Finset.mem_insert_self _ _
    · exact all other nodes (by simpa [SimpleTServer.insertNode, same] using present)
  have erased : ∀ (map : Nat → Option (Finset Nat)) tid,
      (∀ tid nodes, map tid = some nodes → 0 ∈ nodes) →
      ∀ other nodes, Function.update map tid none other = some nodes → 0 ∈ nodes := by
    intro map tid all other nodes present
    by_cases same : other = tid
    · subst same
      simp at present
    · exact all other nodes (by simpa [same] using present)
  cases handled with
  | read served _ ran =>
      have reads := readsOnly_runRead ran
      rw [reads.tidMutex, reads.tidWriteMutex, reads.tidToNodes, reads.tidToWriteNodes]
      exact ⟨unlocked, inserted _ _ _ entries, writeEntries⟩
  | write => exact ⟨unlocked, inserted _ _ _ entries, inserted _ _ _ writeEntries⟩
  | writeRefused refused => exact absurd refused accepted
  | p1c => exact ⟨unlocked, entries, erased _ _ writeEntries⟩
  | p1cRefused refused => exact absurd refused accepted
  | @p2c tid vote _ _ _ server' known _ released ran =>
      have reads := readsOnly_runEvents ran
      obtain ⟨store, pendWrites, rdyToCommit, same, -⟩ := finalize_eq server' tid vote
      rw [same]
      simp only [SimpleTServer.replied, reads.tidMutex, reads.tidWriteMutex, reads.tidToNodes,
        reads.tidToWriteNodes]
      exact ⟨unlocked, erased _ _ entries, writeEntries⟩
  | p2cRefused refused => exact absurd refused accepted

/-- The system after the server has handled a request. -/
def System.handled (system : System) (rid : Nat) (server : SimpleTServer) : System :=
  { system with
    server := server
    requests := Function.update system.requests rid none }

section Handle

variable {server' : SimpleTServer} {event : Nat} {unset : Bool} {request : Request}
  {tag : Option Nat}

theorem Orderly.handled (orderly : Orderly system)
    (call : system.calls rid = some ⟨id, tag⟩)
    (handled : Handled getNode system.server rid event unset request server')
    (accepted : ¬ system.server.Refuses getNode request) :
    Orderly (system.handled rid server') := by
  obtain ⟨unlocked, entries, writeEntries⟩ := handled_entries handled accepted orderly.unlocked
    orderly.entries orderly.writeEntries
  have touches := handled.touches
  have sent := (orderly.calls rid id tag call).1
  have untaken : ∀ other, system.requests other = none →
      (system.handled rid server').requests other = none := by
    intro other taken
    by_cases same : other = rid
    · simp [System.handled, same]
    · simpa [System.handled, same] using taken
  have taken : (system.handled rid server').requests rid = none := by
    simp [System.handled]
  refine
    { orderly with
      nodes := touches.nodes.trans orderly.nodes
      unlocked := unlocked
      entries := entries
      writeEntries := writeEntries
      requests := fun other requested => ?_
      replies := fun other replied => ?_
      events := fun other state' started => ?_ }
  · refine orderly.requests other fun none' => requested (untaken other none')
  · rcases touches.replied other replied with old | rfl | ⟨event', state, started, rfl⟩
    · exact (orderly.replies other old).imp_left (untaken other)
    · exact ⟨taken, sent⟩
    · exact (orderly.events event' state started).imp_left (untaken _)
  · rcases touches.events other state' started with rfl | ⟨state, old, source⟩
    · exact ⟨taken, sent⟩
    · have same : state.rid = state'.rid := congrArg Prod.fst source
      rw [← same]
      exact (orderly.events other state old).imp_left (untaken _)

theorem undisturbed_handled {id' : Nat} {tid : Nat} (call : system.calls rid = some ⟨id, tag⟩)
    (touches : Touches system.server server' rid tid) (differs : id' ≠ id) {other : Nat}
    (distinct : other ≠ tid) :
    Undisturbed system (system.handled rid server') id' other where
  calls := fun _ _ => Iff.rfl
  requests := by
    intro rid' tag' call'
    have : rid' ≠ rid := by
      rintro rfl
      rw [call] at call'
      cases call'
      exact differs rfl
    simp [System.handled, this]
  replies := touches.kept
  known := fun known => by
    rwa [System.handled, touches.known other distinct]
  knownWrite := fun known => by
    rwa [System.handled, touches.knownWrite other distinct]

/-- The request of a Coordinator has been handled. -/
theorem Agrees.handled (agrees : Agrees system id coordinator) (orderly : Orderly system)
    (call : system.calls rid = some ⟨id, tag⟩)
    (requested : system.requests rid = some request)
    (handled : Handled getNode system.server rid event unset request server')
    (accepted : ¬ system.server.Refuses getNode request) :
    Agrees (system.handled rid server') id coordinator := by
  have places := agrees.requested call requested
  have taken : (system.handled rid server').requests rid = none := by
    simp [System.handled]
  cases handled with
  | @read tid startTs key _ served _ ran =>
      obtain ⟨rfl, rfl, control, rfl⟩ := places
      simp only [Agrees, control] at agrees ⊢
      obtain ⟨⟨-, knownWrite⟩, node, rid', underway, -⟩ := agrees
      obtain rfl := underway.2 _ _ call
      have reads := readsOnly_runRead ran
      have known : server'.tidToNodes coordinator.tid ≠ none := by
        simp [reads.tidToNodes, SimpleTServer.takenUp, SimpleTServer.setEvent,
          SimpleTServer.insertNode]
      have sameWrite : server'.tidToWriteNodes = system.server.tidToWriteNodes :=
        reads.tidToWriteNodes
      refine ⟨⟨fun _ => known, fun some => ?_⟩, node, rid, underway, .inr ⟨taken, known⟩⟩
      rw [System.handled, sameWrite]
      exact knownWrite some
  | @write tid key value served _ fresh =>
      obtain ⟨rfl, control, rfl⟩ := places
      simp only [Agrees, control] at agrees ⊢
      obtain ⟨-, node, rid', underway, -⟩ := agrees
      obtain rfl := underway.2 _ _ call
      have known : (system.handled rid (({ system.server with
          tidToNodes := SimpleTServer.insertNode system.server.tidToNodes coordinator.tid
            (getNode key)
          tidToWriteNodes := SimpleTServer.insertNode system.server.tidToWriteNodes
            coordinator.tid (getNode key) }.add coordinator.tid key value).replied rid
              (.write true))).server.tidToNodes coordinator.tid ≠ none := by
        simp [System.handled, SimpleTServer.replied, SimpleTServer.add, SimpleTServer.insertNode]
      have knownWrite : (system.handled rid (({ system.server with
          tidToNodes := SimpleTServer.insertNode system.server.tidToNodes coordinator.tid
            (getNode key)
          tidToWriteNodes := SimpleTServer.insertNode system.server.tidToWriteNodes
            coordinator.tid (getNode key) }.add coordinator.tid key value).replied rid
              (.write true))).server.tidToWriteNodes coordinator.tid ≠ none := by
        simp [System.handled, SimpleTServer.replied, SimpleTServer.add, SimpleTServer.insertNode]
      exact ⟨⟨fun _ => known, fun _ => knownWrite⟩, node, rid, underway,
        .inr ⟨taken, known, knownWrite⟩⟩
  | writeRefused refused => exact absurd refused accepted
  | @p1c tid startTs commitTs readNodes writeNodes nodes lockManager res known _ _ fresh =>
      obtain ⟨same, -, committing, loop, control, rounds, awaited, within, underway⟩ := places
      simp only [Agrees, control] at agrees ⊢
      refine ⟨agrees.1, .answered rounds awaited within underway taken
        (Function.update_self ..) ?_⟩
      have listed := orderly.writeEntries _ _ known
      simp [ListsOne, listed]
  | p1cRefused refused => exact absurd refused accepted
  | @p2c tid vote nodes lockManager events server₁ known _ released ran fresh =>
      obtain ⟨rfl, -, committing, loop, control, rounds, awaited, within, underway⟩ := places
      simp only [Agrees, control] at agrees ⊢
      exact .answered rounds awaited within underway taken (Function.update_self ..)
        (orderly.entries _ _ known)
  | p2cRefused refused => exact absurd refused accepted

end Handle

/-- The server handles a request. -/
theorem Consistent.handle {event : Nat} {unset : Bool} (consistent : Consistent system)
    (stepped : system.step getNode (.handle rid event unset) = .ok system') :
    Consistent system' := by
  rw [System.step] at stepped
  split at stepped
  · next request requested _ =>
      split at stepped
      · exact absurd stepped (by simp)
      · next server' ran =>
          obtain rfl := Except.ok.inj stepped
          have handled := handled_of_handle ran
          obtain ⟨⟨id, tag⟩, call⟩ := Option.ne_none_iff_exists'.1
            (consistent.orderly.requests rid (by simp [requested]))
          obtain ⟨-, process, coordinator, present, -⟩ := consistent.orderly.calls _ _ _ call
          have agrees := consistent.agrees _ _ _ present
          obtain ⟨tid, accepted⟩ := agrees.accepts call requested consistent.orderly.nodes
          refine ⟨consistent.orderly.handled call handled accepted, ?_⟩
          intro other process' coordinator' present'
          by_cases same : other = id
          · subst same
            obtain ⟨rfl, rfl⟩ : process = process' ∧ coordinator = coordinator' := by
              simpa using present.symm.trans present'
            exact agrees.handled consistent.orderly call requested handled accepted
          · refine (consistent.agrees _ _ _ present').frame
              (undisturbed_handled call (handled.touches) same fun equal => same ?_)
            exact consistent.orderly.tids _ _ _ _ _ _ present' present (equal.trans tid)
  · exact absurd stepped (by simp)

/-! ## One round -/

/--
A Coordinator gets a transaction ID that no other has, and the tags of a
client, the first of which is 135643, stay below `2 ^ 31`.
-/
def DistinctIds (system : System) : Label → Prop
  | .start _ tid _ =>
      ∀ id < system.created, (system.coordinators id).map (·.2.tid) ≠ some tid
  | .turn id =>
      (system.coordinators id).all fun (process, coordinator) =>
        (coordinator.turn (system.processes process).client).all fun (client, _) =>
          client.tag < 2147483648
  | _ => True

instance (system : System) (label : Label) : Decidable (DistinctIds system label) :=
  match label with
  | .start _ tid _ => inferInstanceAs (Decidable (∀ id < system.created,
      (system.coordinators id).map (·.2.tid) ≠ some tid))
  | .turn _ => inferInstanceAs (Decidable (_ = true))
  | .read _ _ | .write _ _ _ | .commit _ | .abort _ | .receive _ _ | .handle _ _ _ =>
      inferInstanceAs (Decidable True)

/-- What `InRound` says of the number of rounds, given that a reply can be collected. -/
theorem InRound.atMostOne {nodes : Finset Nat} {known : Prop} {request : Request}
    {lists : Reply → Prop} {loop : RoundLoop} {collectable : Nat → Prop}
    (stands : InRound system id nodes known request lists loop)
    (collect : ∀ rid reply, system.Underway id (some loop.tag) rid → loop.awaited ≠ [] →
      system.server.replies rid = some reply → lists reply → collectable rid) :
    loop.rounds ≤ 1 ∧ (loop.rounds = 1 → loop.awaited = [] → loop.remNodes = ∅) ∧
      (loop.awaited ≠ [] → ∃ rid, system.calls rid = some ⟨id, some loop.tag⟩ ∧
        ((∃ request, system.requests rid = some request) ∨ collectable rid)) := by
  cases stands with
  | before begun silent expected =>
      subst begun
      exact ⟨Nat.zero_le _, fun one => absurd one (by simp [RoundLoop.start]),
        fun waits => absurd rfl waits⟩
  | @asked rid rounds awaited within underway requested expected =>
      exact ⟨rounds.le, fun _ idle => absurd idle (by simp [awaited]),
        fun _ => ⟨rid, underway.1, .inl ⟨request, requested⟩⟩⟩
  | @answered rid reply rounds awaited within underway taken replied listed =>
      have waits : loop.awaited ≠ [] := by simp [awaited]
      exact ⟨rounds.le, fun _ idle => absurd idle waits,
        fun _ => ⟨rid, underway.1, .inr (collect rid reply underway waits replied listed)⟩⟩
  | finished rounds awaited empty silent =>
      exact ⟨rounds.le, fun _ _ => empty, fun waits => absurd awaited waits⟩

/-- A reply that has come can be collected by the Coordinator that waits for it. -/
theorem exists_receive {reply : Reply} {number : Nat}
    (present : system.coordinators id = some (process, coordinator))
    (underway : system.Underway id (some number) rid)
    (waits : coordinator.awaits = some (some number))
    (replied : system.server.replies rid = some reply)
    (received : (coordinator.receive (system.processes process).client reply).isSome) :
    ∃ system', system.step getNode (.receive id rid) = .ok system' := by
  have awaits : system.awaits process id coordinator rid = true := by
    simp [System.awaits, underway.1, present, waits]
  obtain ⟨⟨client, coordinator'⟩, received⟩ := Option.isSome_iff_exists.1 received
  refine ⟨(system.setCoordinator id process client coordinator').collected rid, ?_⟩
  simp only [System.step, present, replied, awaits, received, if_true]
  rfl

theorem Consistent.step {label : Label} (consistent : Consistent system)
    (permitted : DistinctIds system label)
    (stepped : system.step getNode label = .ok system') : Consistent system' := by
  cases label with
  | start process tid startTs => exact consistent.start permitted stepped
  | read id key => exact consistent.read stepped
  | write id key value => exact consistent.write stepped
  | commit id => exact consistent.finish stepped
  | abort id => exact consistent.finish stepped
  | turn id => exact consistent.turn permitted stepped
  | receive id rid => exact consistent.receive stepped
  | handle rid event unset => exact consistent.handle stepped

/--
Every request that is under way gets its event: the server is never led into
the branches for a node it does not serve or a transaction it does not know.
A loop of `commit` or `abort` begins at most one round.  While it waits, its
message is on its way to the server or the reply can be collected, and when it
has been collected, no node remains for another round.
-/
theorem one_round_of_reach
    (reached : Reach (System.step getNode) DistinctIds (.first .initial) system) :
    (∀ rid event unset request, system.requests rid = some request →
      ∃ server made, system.server.getEvent getNode rid event unset request =
        .ok (server, some made)) ∧
    ∀ id process coordinator loop,
      system.coordinators id = some (process, coordinator) → coordinator.loop = some loop →
        loop.rounds ≤ 1 ∧
        (loop.rounds = 1 → loop.awaited = [] → loop.remNodes = ∅) ∧
        (loop.awaited ≠ [] → ∃ rid, system.calls rid = some ⟨id, some loop.tag⟩ ∧
          ((∃ request, system.requests rid = some request) ∨
            ∃ system', system.step getNode (.receive id rid) = .ok system')) := by
  have consistent : Consistent system :=
    reached.invariant .first fun _ _ _ consistent permitted stepped =>
      consistent.step permitted stepped
  constructor
  · intro rid event unset request requested
    obtain ⟨⟨id, tag⟩, call⟩ := Option.ne_none_iff_exists'.1
      (consistent.orderly.requests rid (by simp [requested]))
    obtain ⟨-, process, coordinator, present, -⟩ := consistent.orderly.calls _ _ _ call
    obtain ⟨-, accepted⟩ := (consistent.agrees _ _ _ present).accepts call requested
      consistent.orderly.nodes
    exact getEvent_accepts consistent.orderly.unlocked.1 consistent.orderly.unlocked.2 accepted
  · intro id process coordinator loop present inLoop
    have agrees := consistent.agrees _ _ _ present
    unfold Coordinator.loop at inLoop
    split at inLoop
    · next committing loop' control =>
        obtain rfl := Option.some.inj inLoop
        simp only [Agrees, control] at agrees
        refine agrees.2.atMostOne fun rid reply underway waits replied listed => ?_
        refine exists_receive present underway (by simp [Coordinator.awaits, control, waits])
          replied ?_
        cases reply with
        | p1c nodes vote => simp [Coordinator.receive, control, waits]
        | read | write | p2c => exact listed.elim
    · next committing vote loop' control =>
        obtain rfl := Option.some.inj inLoop
        simp only [Agrees, control] at agrees
        refine InRound.atMostOne agrees fun rid reply underway waits replied listed => ?_
        refine exists_receive present underway (by simp [Coordinator.awaits, control, waits])
          replied ?_
        cases reply with
        | p2c nodes => simp [Coordinator.receive, control, waits]
        | read | write | p1c => exact listed.elim
    all_goals exact absurd inLoop (by simp)

/-- A client writes a key and commits while another is reading the key. -/
theorem one_round_of_reach_of_commit :
    ∃ (system : System) (server : SimpleTServer) (made : ServerEvent) (process : Nat)
      (coordinator : Coordinator) (loop : RoundLoop),
      system.server.getEvent getNode 4 1 false (.p2c 7 true) = .ok (server, some made) ∧
      system.coordinators 0 = some (process, coordinator) ∧ coordinator.loop = some loop ∧
      loop.rounds ≤ 1 := by
  obtain ⟨system, reached, holds⟩ := exists_reach_of_admits DistinctIds
    [.start 0 7 10, .start 1 8 20, .write 0 3 "a", .handle 1 0 false, .receive 0 1,
      .read 1 3, .commit 0, .turn 0, .handle 3 0 false, .handle 2 0 false, .receive 0 3,
      .turn 0, .turn 0]
    (fun system => system.requests 4 = some (.p2c 7 true) ∧
      ((system.coordinators 0).bind (·.2.loop)).isSome)
    (show admits (System.step getNode) _ (.first .initial) _ = true by decide)
    (show ends (System.step getNode) _ (.first .initial) _ = true by decide)
  obtain ⟨requested, looping⟩ := by simpa using holds
  obtain ⟨loop, found⟩ := Option.isSome_iff_exists.1 looping
  obtain ⟨⟨process, coordinator⟩, present, inLoop⟩ := Option.bind_eq_some_iff.1 found
  obtain ⟨accepts, rounds⟩ := one_round_of_reach reached
  obtain ⟨server, made, accepted⟩ := accepts 4 1 false _ requested
  exact ⟨system, server, made, process, coordinator, loop, accepted, present, inLoop,
    (rounds 0 process coordinator loop present inLoop).1⟩

end Mvtx.Cluster
