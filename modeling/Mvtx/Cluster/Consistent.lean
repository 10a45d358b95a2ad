import Mvtx.Cluster.Orderly

/-!
# The steps of the Coordinators

The invariant is that the system is orderly and that every Coordinator and the
server agree.  The steps of a Coordinator are proved here to preserve it: to
call `read`, `write`, `commit` or `abort`, to go on from the head of a loop, to
collect a reply, and to be created.
-/

namespace Mvtx.Cluster

open Lib Server Client

/-- The system is orderly, and every Coordinator and the server agree. -/
structure Consistent (system : System) : Prop where
  orderly : Orderly system
  agrees : ∀ id process coordinator, system.coordinators id = some (process, coordinator) →
    Agrees system id coordinator

variable {system system' : System} {id process rid : Nat}
  {client : SimpleResolutionClient} {coordinator coordinator' : Coordinator}

theorem Consistent.first : Consistent (.first .initial) where
  orderly :=
    { nodes := rfl
      unlocked := ⟨rfl, rfl⟩
      cached := fun _ => .initial
      few := fun _ => by simp [System.first, SimpleResolutionClient.initial]
      entries := by simp [System.first, SimpleTServer.initial]
      writeEntries := by simp [System.first, SimpleTServer.initial]
      calls := by simp [System.first]
      tags := by simp [System.first]
      requests := by simp [System.first]
      replies := by simp [System.first, SimpleTServer.initial]
      events := by simp [System.first, SimpleTServer.initial]
      tids := by simp [System.first]
      created := by simp [System.first]
      within := by simp [System.first] }
  agrees := by simp [System.first]

/-- A Coordinator that waits has a call under way. -/
theorem Agrees.underway {tag : Option Nat} (agrees : Agrees system id coordinator)
    (waits : coordinator.awaits = some tag) : ∃ rid, system.Underway id tag rid := by
  unfold Agrees at agrees
  unfold Coordinator.awaits at waits
  have inRound : ∀ {nodes known request lists} {loop : RoundLoop},
      InRound system id nodes known request lists loop →
      (if loop.awaited = [] then none else some (some loop.tag)) = some tag →
      ∃ rid, system.Underway id tag rid := by
    intro nodes known request lists loop stands waits
    split at waits
    · exact absurd waits (by simp)
    · next awaited =>
        obtain rfl := Option.some.inj waits
        cases stands with
        | before begun => simp [begun, RoundLoop.start] at awaited
        | asked _ _ _ underway => exact ⟨_, underway⟩
        | answered _ _ _ underway => exact ⟨_, underway⟩
        | finished _ awaited' => exact absurd awaited' awaited
  split at agrees <;> simp only [‹coordinator.control = _›] at waits
  · exact absurd waits (by simp)
  · obtain rfl := Option.some.inj waits
    obtain ⟨-, -, rid, underway, -⟩ := agrees
    exact ⟨rid, underway⟩
  · obtain rfl := Option.some.inj waits
    obtain ⟨-, -, rid, underway, -⟩ := agrees
    exact ⟨rid, underway⟩
  · exact inRound agrees.2 waits
  · exact inRound agrees waits
  · exact absurd waits (by simp)

/-- At the head of a loop nothing is under way, and only the first round is still to come. -/
theorem InRound.head {nodes : Finset Nat} {known : Prop} {request : Request}
    {lists : Reply → Prop} {loop : RoundLoop}
    (stands : InRound system id nodes known request lists loop) (idle : loop.awaited = []) :
    system.Silent id ∧ (loop.remNodes = ∅ ∨ loop = .start nodes ∧ nodes ≠ ∅ ∧ known) := by
  cases stands with
  | before begun silent expected =>
      refine ⟨silent, ?_⟩
      by_cases empty : nodes = ∅
      · exact .inl (by rw [begun]; exact empty)
      · exact .inr ⟨begun, empty, expected (Finset.nonempty_iff_ne_empty.2 empty)⟩
  | asked rounds awaited => simp [awaited] at idle
  | answered rounds awaited => simp [awaited] at idle
  | finished rounds awaited empty silent => exact ⟨silent, .inl empty⟩

/-- The reply to the one message of a round lists all that is awaited. -/
theorem InRound.collect {nodes : Finset Nat} {known : Prop} {request : Request}
    {lists : Reply → Prop} {loop : RoundLoop} {tag : Option Nat} {reply : Reply}
    (stands : InRound system id nodes known request lists loop)
    (underway : system.Underway id tag rid) (taken : system.requests rid = none)
    (replied : system.server.replies rid = some reply) (waits : loop.awaited ≠ []) :
    loop.rounds = 1 ∧ loop.awaited = ["0.0.0.0:10000"] ∧ loop.remNodes ⊆ {0} ∧ lists reply := by
  cases stands with
  | before begun => simp [begun, RoundLoop.start] at waits
  | asked _ _ _ underway' requested =>
      rw [← underway'.2 _ _ underway.1, taken] at requested
      exact absurd requested (by simp)
  | answered rounds awaited within underway' _ replied' listed =>
      rw [← underway'.2 _ _ underway.1, replied] at replied'
      exact ⟨rounds, awaited, within, Option.some.inj replied' ▸ listed⟩
  | finished _ awaited => exact absurd awaited waits

/-- Collecting a reply keeps the cache. -/
theorem collect_client (cached : client.Cached) (loop : RoundLoop) (nodes : Finset Nat)
    (vote : Bool) :
    (loop.collect client nodes vote).1.Cached ∧
      (loop.collect client nodes vote).1.tag = client.tag := by
  simp only [RoundLoop.collect]
  split
  · exact ⟨cached.invalidateAddresses _, rfl⟩
  · exact ⟨cached, rfl⟩

/-- A reply that lists the one node leaves none. -/
theorem remNodes_collect {nodes : Finset Nat} {vote : Bool} {loop : RoundLoop}
    (remains : loop.remNodes ⊆ {0}) (listed : 0 ∈ nodes) :
    (loop.collect client nodes vote).2.remNodes = ∅ := by
  simp only [RoundLoop.collect, Finset.sdiff_eq_empty_iff_subset]
  exact remains.trans (Finset.singleton_subset_iff.2 listed)

theorem answered_client (cached : client.Cached) (status : Bool) (node : Nat) :
    (if status then client else Coordinator.turnedDown client node).Cached ∧
      (if status then client else Coordinator.turnedDown client node).tag = client.tag := by
  cases status with
  | true => exact ⟨cached, rfl⟩
  | false => exact turnedDown_eq cached node

/-! ## Steps of a Coordinator -/

namespace Consistent

theorem store (consistent : Consistent system)
    (present : system.coordinators id = some (process, coordinator))
    (becomes : Becomes (system.processes process).client client coordinator coordinator')
    (agrees : Agrees (system.setCoordinator id process client coordinator') id coordinator') :
    Consistent (system.setCoordinator id process client coordinator') where
  orderly := consistent.orderly.setCoordinator present becomes
  agrees := by
    intro other process'' coordinator'' present'
    rcases coordinators_setCoordinator present' with ⟨rfl, rfl, rfl⟩ | ⟨-, old⟩
    · exact agrees
    · exact (consistent.agrees other _ _ old).frame undisturbed_setCoordinator

/-- A Coordinator sends a message, with the next tag of its client or without one. -/
theorem storeAndSend {message : Message} (consistent : Consistent system)
    (present : system.coordinators id = some (process, coordinator))
    (becomes : Becomes (system.processes process).client client coordinator coordinator')
    (tag : ∀ number, message.tag = some number →
      number = (system.processes process).client.tag ∧ number < client.tag)
    (agrees : Agrees ((system.setCoordinator id process client coordinator').send id [message])
      id coordinator') :
    Consistent ((system.setCoordinator id process client coordinator').send id [message]) where
  orderly := by
    have stored : (system.setCoordinator id process client coordinator').coordinators id =
        some (process, coordinator') := by
      simp [System.setCoordinator]
    refine (consistent.orderly.setCoordinator present becomes).send stored fun number same => ?_
    obtain ⟨rfl, below⟩ := tag number same
    refine ⟨by simpa [System.setCoordinator] using below, ?_⟩
    intro rid other coordinator₁ call present₁
    -- The tags in use are below the one that the client has had so far.
    obtain ⟨-, process₂, coordinator₂, present₂, less⟩ := consistent.orderly.calls rid other _ call
    have sameProcess : process₂ = process := by
      rcases coordinators_setCoordinator present₁ with ⟨rfl, -, -⟩ | ⟨-, old⟩
      · exact congrArg Prod.fst (Option.some.inj (present₂.symm.trans present))
      · exact congrArg Prod.fst (Option.some.inj (present₂.symm.trans old))
    have := less _ rfl
    rw [sameProcess] at this
    exact absurd this (Nat.lt_irrefl _)
  agrees := by
    intro other process'' coordinator'' present'
    have stored : (system.setCoordinator id process client coordinator').coordinators other =
        some (process'', coordinator'') := present'
    rcases coordinators_setCoordinator stored with ⟨rfl, rfl, rfl⟩ | ⟨differs, old⟩
    · exact agrees
    · exact (consistent.agrees other _ _ old).frame (undisturbed_setCoordinator.trans
        (undisturbed_send (consistent.orderly.setCoordinator present becomes) differs message))

/-- A Coordinator takes the call back whose reply it has collected. -/
theorem storeAndCollect {tag : Option Nat} (consistent : Consistent system)
    (present : system.coordinators id = some (process, coordinator))
    (call : system.calls rid = some ⟨id, tag⟩) (taken : system.requests rid = none)
    (becomes : Becomes (system.processes process).client client coordinator coordinator')
    (agrees : Agrees ((system.setCoordinator id process client coordinator').collected rid)
      id coordinator') :
    Consistent ((system.setCoordinator id process client coordinator').collected rid) where
  orderly := (consistent.orderly.setCoordinator present becomes).collected taken
  agrees := by
    intro other process'' coordinator'' present'
    have stored : (system.setCoordinator id process client coordinator').coordinators other =
        some (process'', coordinator'') := present'
    rcases coordinators_setCoordinator stored with ⟨rfl, rfl, rfl⟩ | ⟨differs, old⟩
    · exact agrees
    · exact (consistent.agrees other _ _ old).frame (undisturbed_setCoordinator.trans
        (undisturbed_collected call differs))

/-- A Coordinator with other node sets or in another place. -/
theorem becomes (consistent : Consistent system)
    (cached : client.Cached) (tag : client.tag = (system.processes process).client.tag)
    (tid : coordinator'.tid = coordinator.tid)
    (within : coordinator'.readNodes ⊆ {0} ∧ coordinator'.writeNodes ⊆ {0}) :
    Becomes (system.processes process).client client coordinator coordinator' where
  cached := cached
  more := tag.ge
  few := tag ▸ consistent.orderly.few process
  tid := tid
  within := within

theorem readyCoordinator_eq_ok
    (ready : system.readyCoordinator id = .ok (process, coordinator)) :
    system.coordinators id = some (process, coordinator) ∧ coordinator.control = .ready := by
  unfold System.readyCoordinator at ready
  split at ready
  · exact absurd ready (by simp)
  · next process' coordinator' present =>
      split at ready
      · next control =>
          obtain ⟨rfl, rfl⟩ := Prod.mk.inj (Except.ok.inj ready)
          exact ⟨present, control⟩
      · exact absurd ready (by simp)

theorem read {key : Nat} (consistent : Consistent system)
    (stepped : system.step getNode (.read id key) = .ok system') : Consistent system' := by
  obtain ⟨⟨process, coordinator⟩, ready, stepped⟩ := exists_of_bind stepped
  obtain ⟨present, control⟩ := readyCoordinator_eq_ok ready
  have agrees := consistent.agrees _ _ _ present
  have within := consistent.orderly.within _ _ _ present
  simp only [Agrees, control] at agrees
  obtain ⟨expected, silent⟩ := agrees
  cases written : coordinator.pendWrites key with
  | some value =>
      simp only [Coordinator.read, written] at stepped
      obtain rfl := Except.ok.inj stepped
      refine consistent.store present
        (consistent.becomes (consistent.orderly.cached process) rfl rfl within) ?_
      simp only [Agrees, control]
      exact ⟨expected, silent⟩
  | none =>
      obtain ⟨client, sent, cached, tag⟩ := sendSync_eq (consistent.orderly.cached process)
        (getNode key) (.read coordinator.tid coordinator.startTs key)
      simp only [Coordinator.read, written, sent] at stepped
      obtain rfl := Except.ok.inj stepped
      refine consistent.storeAndSend present (consistent.becomes cached tag rfl within)
        (by simp) ?_
      exact ⟨expected, rfl, _, underway_send silent _, .inl (requests_send _)⟩

theorem write {key : Nat} {value : String} (consistent : Consistent system)
    (stepped : system.step getNode (.write id key value) = .ok system') :
    Consistent system' := by
  obtain ⟨⟨process, coordinator⟩, ready, stepped⟩ := exists_of_bind stepped
  obtain ⟨present, control⟩ := readyCoordinator_eq_ok ready
  have agrees := consistent.agrees _ _ _ present
  have within := consistent.orderly.within _ _ _ present
  simp only [Agrees, control] at agrees
  obtain ⟨expected, silent⟩ := agrees
  obtain ⟨client, sent, cached, tag⟩ := sendSync_eq (consistent.orderly.cached process)
    (getNode key) (.write coordinator.tid key value)
  simp only [Coordinator.write, sent] at stepped
  obtain rfl := Except.ok.inj stepped
  refine consistent.storeAndSend present (consistent.becomes cached tag rfl within) (by simp) ?_
  exact ⟨expected, rfl, _, underway_send silent _, .inl ⟨key, value, requests_send _⟩⟩

/-- `commit` or `abort` is called. -/
theorem finish {committing : Bool} (consistent : Consistent system)
    (stepped : (do
      let (process, coordinator) ← system.readyCoordinator id
      return system.setCoordinator id process (system.processes process).client
        (coordinator.finish committing)) = Except.ok system') : Consistent system' := by
  obtain ⟨⟨process, coordinator⟩, ready, stepped⟩ := exists_of_bind stepped
  obtain ⟨present, control⟩ := readyCoordinator_eq_ok ready
  obtain rfl := Except.ok.inj stepped
  have agrees := consistent.agrees _ _ _ present
  have within := consistent.orderly.within _ _ _ present
  simp only [Agrees, control] at agrees
  obtain ⟨⟨known, knownWrite⟩, silent⟩ := agrees
  refine consistent.store present
    (consistent.becomes (consistent.orderly.cached process) rfl rfl within) ?_
  exact ⟨known, .before rfl silent knownWrite⟩

/-- The first round of a loop, or the end of it. -/
theorem turn (consistent : Consistent system)
    (few : (system.coordinators id).all (fun (process, coordinator) =>
      (coordinator.turn (system.processes process).client).all fun (client, _) =>
        client.tag < 2147483648))
    (stepped : system.step getNode (.turn id) = .ok system') : Consistent system' := by
  rw [System.step] at stepped
  split at stepped
  · exact absurd stepped (by simp)
  · next process coordinator present =>
      have agrees := consistent.agrees _ _ _ present
      have within := consistent.orderly.within _ _ _ present
      have cached := consistent.orderly.cached process
      split at stepped
      · exact absurd stepped (by simp)
      · next client coordinator' messages turned =>
          obtain rfl := Except.ok.inj stepped
          have small : client.tag < 2147483648 := by
            simpa [present, turned] using few
          unfold Coordinator.turn at turned
          split at turned
          · next committing loop control =>
              simp only [Agrees, control] at agrees
              obtain ⟨known, stands⟩ := agrees
              split at turned
              · exact absurd turned (by simp)
              · next idle =>
                  obtain ⟨silent, rest⟩ := stands.head (not_not.1 idle)
                  split at turned
                  · obtain ⟨rfl, rfl, rfl⟩ := by simpa using turned
                    exact consistent.store present (consistent.becomes cached rfl rfl within)
                      (.before rfl silent known)
                  · next remains =>
                      obtain ⟨rfl, nonempty, knownWrite⟩ := rest.resolve_left remains
                      obtain ⟨client', sent, cached', tag⟩ :=
                        sendRound_start cached nonempty (consistent.orderly.few process)
                      rw [sent] at turned
                      obtain ⟨rfl, rfl, rfl⟩ := by simpa using turned
                      refine consistent.storeAndSend present
                        ⟨cached', by omega, small, rfl, within⟩ (by simp [tag]) ⟨known, ?_⟩
                      exact .asked rfl rfl within.2 (underway_send silent _) (requests_send _)
                        knownWrite
          · next committing vote loop control =>
              simp only [Agrees, control] at agrees
              split at turned
              · exact absurd turned (by simp)
              · next idle =>
                  obtain ⟨silent, rest⟩ := InRound.head agrees (not_not.1 idle)
                  split at turned
                  · obtain ⟨rfl, rfl, rfl⟩ := by simpa using turned
                    exact consistent.store present (consistent.becomes cached rfl rfl within)
                      silent
                  · next remains =>
                      obtain ⟨rfl, nonempty, known⟩ := rest.resolve_left remains
                      obtain ⟨client', sent, cached', tag⟩ :=
                        sendRound_start cached nonempty (consistent.orderly.few process)
                      rw [sent] at turned
                      obtain ⟨rfl, rfl, rfl⟩ := by simpa using turned
                      refine consistent.storeAndSend present
                        ⟨cached', by omega, small, rfl, within⟩ (by simp [tag]) ?_
                      exact .asked rfl rfl (Finset.union_subset within.2 within.1)
                        (underway_send silent _) (requests_send _) known
          · exact absurd turned (by simp)

/-- The reply that a Coordinator collects is the one to its own message. -/
theorem underway_of_awaits (consistent : Consistent system)
    (present : system.coordinators id = some (process, coordinator))
    (awaits : system.awaits process id coordinator rid = true) :
    ∃ tag, system.Underway id tag rid := by
  unfold System.awaits at awaits
  split at awaits
  · exact absurd awaits (by simp)
  · next call called =>
      obtain ⟨other, tag⟩ := call
      cases tag with
      | none =>
          obtain ⟨rfl, waits⟩ := by simpa using awaits
          obtain ⟨rid', underway⟩ := (consistent.agrees _ _ _ present).underway waits
          obtain rfl := underway.2 _ _ called
          exact ⟨none, underway⟩
      | some tag =>
          obtain ⟨⟨coordinator', present'⟩, waits⟩ := by simpa using awaits
          obtain ⟨rid', underway⟩ := (consistent.agrees _ _ _ present).underway waits
          obtain rfl := consistent.orderly.tags _ _ _ _ _ _ _ _ called underway.1 present' present
          exact ⟨some tag, underway⟩

theorem receive (consistent : Consistent system)
    (stepped : system.step getNode (.receive id rid) = .ok system') : Consistent system' := by
  rw [System.step] at stepped
  split at stepped
  · next process coordinator reply present replied =>
      split at stepped
      · next awaits =>
          split at stepped
          · exact absurd stepped (by simp)
          · next client coordinator' received =>
              obtain rfl := Except.ok.inj stepped
              have agrees := consistent.agrees _ _ _ present
              have within := consistent.orderly.within _ _ _ present
              have cached := consistent.orderly.cached process
              obtain ⟨tag, underway⟩ := consistent.underway_of_awaits present awaits
              obtain ⟨taken, -⟩ := consistent.orderly.replies rid (by simp [replied])
              have stored : (system.setCoordinator id process client coordinator').Underway id
                tag rid := underway
              have silent := silent_collected stored
              unfold Coordinator.receive at received
              split at received
              · next key node value status control =>
                  obtain ⟨rfl, rfl⟩ := by simpa using received
                  simp only [Agrees, control] at agrees
                  obtain ⟨⟨known, knownWrite⟩, rfl, rid', underway', state⟩ := agrees
                  obtain rfl := underway'.2 _ _ underway.1
                  obtain ⟨cached', same⟩ := answered_client cached status 0
                  refine consistent.storeAndCollect present underway.1 taken
                    (consistent.becomes cached' same rfl ⟨?_, within.2⟩) ⟨⟨?_, knownWrite⟩, silent⟩
                  · exact Finset.insert_subset (by simp) within.1
                  · exact fun _ => (state.resolve_left (by simp [taken])).2
              · next node status control =>
                  obtain ⟨rfl, rfl⟩ := by simpa using received
                  simp only [Agrees, control] at agrees
                  obtain ⟨-, rfl, rid', underway', state⟩ := agrees
                  obtain rfl := underway'.2 _ _ underway.1
                  obtain ⟨cached', same⟩ := answered_client cached status 0
                  obtain ⟨-, known, knownWrite⟩ := state.resolve_left (by simp [taken])
                  refine consistent.storeAndCollect present underway.1 taken
                    (consistent.becomes cached' same rfl ⟨within.1, ?_⟩)
                    ⟨⟨fun _ => known, fun _ => knownWrite⟩, silent⟩
                  exact Finset.insert_subset (by simp) within.2
              · next committing loop nodes vote control =>
                  simp only [Agrees, control] at agrees
                  split at received
                  · exact absurd received (by simp)
                  · next waits =>
                      obtain ⟨rfl, rfl⟩ := by simpa using received
                      obtain ⟨rounds, awaited, remains, listed⟩ :=
                        agrees.2.collect underway taken replied waits
                      obtain ⟨cached', same⟩ := collect_client cached loop nodes vote
                      exact consistent.storeAndCollect present underway.1 taken
                        (consistent.becomes cached' same rfl within)
                        ⟨agrees.1, .finished rounds (by simp [RoundLoop.collect, awaited])
                          (remNodes_collect remains listed) silent⟩
              · next committing vote loop nodes control =>
                  simp only [Agrees, control] at agrees
                  split at received
                  · exact absurd received (by simp)
                  · next waits =>
                      obtain ⟨rfl, rfl⟩ := by simpa using received
                      obtain ⟨rounds, awaited, remains, listed⟩ :=
                        InRound.collect agrees underway taken replied waits
                      obtain ⟨cached', same⟩ := collect_client cached loop nodes true
                      exact consistent.storeAndCollect present underway.1 taken
                        (consistent.becomes cached' same rfl within)
                        (.finished rounds (by simp [RoundLoop.collect, awaited])
                          (remNodes_collect remains listed) silent)
              · exact absurd received (by simp)
      · exact absurd stepped (by simp)
  · exact absurd stepped (by simp)

/-- A Coordinator is created with a transaction ID that no other has. -/
theorem start {tid startTs : Nat} (consistent : Consistent system)
    (distinct : ∀ id < system.created, (system.coordinators id).map (·.2.tid) ≠ some tid)
    (stepped : system.step getNode (.start process tid startTs) = .ok system') :
    Consistent system' := by
  obtain rfl := Except.ok.inj stepped
  obtain ⟨orderly, agrees⟩ := consistent
  have fresh : ∀ id process coordinator, system.coordinators id = some (process, coordinator) →
      coordinator.tid ≠ tid := by
    intro id process coordinator present same
    exact distinct id (orderly.created id (by simp [present])) (by simp [present, same])
  have unused : ∀ rid tag, system.calls rid ≠ some ⟨system.created, tag⟩ := by
    intro rid tag call
    obtain ⟨-, process', coordinator, present, -⟩ := orderly.calls rid _ tag call
    exact Nat.lt_irrefl _ (orderly.created system.created (by simp [present]))
  have clients : ∀ other, (Function.update system.processes process
      { system.processes process with
        curId := (genTransactionID (system.processes process).curId).2 } other).client =
      (system.processes other).client := by
    intro other
    by_cases same : other = process
    · subst same
      simp
    · simp [same]
  have coordinators : ∀ id process' coordinator, Function.update system.coordinators
      system.created (some (process, .new tid startTs)) id = some (process', coordinator) →
      id = system.created ∧ coordinator = .new tid startTs ∨
        system.coordinators id = some (process', coordinator) := by
    intro id process' coordinator present
    by_cases same : id = system.created
    · subst same
      exact .inl ⟨rfl, by simpa using (congrArg (Option.map Prod.snd) present).symm⟩
    · exact .inr (by simpa [same] using present)
  refine ⟨?_, fun id process' coordinator present => ?_⟩
  · refine
      { nodes := orderly.nodes
        unlocked := orderly.unlocked
        cached := fun other => by simpa only [clients] using orderly.cached other
        few := fun other => by simpa only [clients] using orderly.few other
        entries := orderly.entries
        writeEntries := orderly.writeEntries
        calls := fun rid id tag call => ?_
        tags := ?_
        requests := orderly.requests
        replies := orderly.replies
        events := orderly.events
        tids := ?_
        created := fun id some => ?_
        within := fun id process' coordinator present => ?_ }
    · obtain ⟨sent, process', coordinator, present, below⟩ := orderly.calls rid id tag call
      have differs : id ≠ system.created := by
        rintro rfl
        exact unused rid tag call
      exact ⟨sent, process', coordinator, by simpa [differs] using present,
        by simpa only [clients] using below⟩
    · intro rid rid' id id' number process' coordinator coordinator' call call' present present'
      refine orderly.tags rid rid' id id' number process' coordinator coordinator' call call' ?_ ?_
      · refine (coordinators _ _ _ present).resolve_left ?_
        rintro ⟨rfl, -⟩
        exact unused rid _ call
      · refine (coordinators _ _ _ present').resolve_left ?_
        rintro ⟨rfl, -⟩
        exact unused rid' _ call'
    · intro id id' process₁ process₂ coordinator coordinator' present present' same
      rcases coordinators _ _ _ present with ⟨rfl, rfl⟩ | old <;>
        rcases coordinators _ _ _ present' with ⟨rfl, rfl⟩ | old'
      · rfl
      · exact absurd same.symm (fresh _ _ _ old')
      · exact absurd same (fresh _ _ _ old)
      · exact orderly.tids _ _ _ _ _ _ old old' same
    · by_cases same : id = system.created
      · exact same ▸ Nat.lt_succ_self _
      · exact (orderly.created id (by simpa [same] using some)).trans (Nat.lt_succ_self _)
    · rcases coordinators _ _ _ present with ⟨rfl, rfl⟩ | old
      · simp [Coordinator.new]
      · exact orderly.within _ _ _ old
  · rcases coordinators _ _ _ present with ⟨rfl, rfl⟩ | old
    · exact ⟨⟨by simp [Coordinator.new], by simp [Coordinator.new]⟩, unused⟩
    · exact (agrees _ _ _ old).frame (.of_eq rfl rfl rfl)

end Consistent

end Mvtx.Cluster
