import Mvtx.Cluster.Agreement
import Mvtx.Server.Handle

/-!
# Orderly systems

`Orderly` has the invariants about messages and entries which do not speak of
the place where a Coordinator is.  A step of a Coordinator stores the state of
it and of its client, and then sends one message or takes one call back; each
of these keeps the system orderly and does not disturb the other Coordinators.
-/

namespace Mvtx.Cluster

open Lib Server Client

/-- Calls, requests, replies and the entries of the server are in order. -/
structure Orderly (system : System) : Prop where
  nodes : system.server.nodes = {0}
  unlocked : system.server.tidMutex = false ∧ system.server.tidWriteMutex = false
  cached : ∀ process, (system.processes process).client.Cached
  few : ∀ process, (system.processes process).client.tag < 2147483648
  entries : ∀ tid nodes, system.server.tidToNodes tid = some nodes → 0 ∈ nodes
  writeEntries : ∀ tid nodes, system.server.tidToWriteNodes tid = some nodes → 0 ∈ nodes
  calls : ∀ rid id tag, system.calls rid = some ⟨id, tag⟩ → rid ≤ system.sent ∧
    ∃ process coordinator, system.coordinators id = some (process, coordinator) ∧
      ∀ number, tag = some number → number < (system.processes process).client.tag
  tags : ∀ rid rid' id id' number process coordinator coordinator',
    system.calls rid = some ⟨id, some number⟩ → system.calls rid' = some ⟨id', some number⟩ →
    system.coordinators id = some (process, coordinator) →
    system.coordinators id' = some (process, coordinator') → rid = rid'
  requests : ∀ rid, system.requests rid ≠ none → system.calls rid ≠ none
  replies : ∀ rid, system.server.replies rid ≠ none →
    system.requests rid = none ∧ rid ≤ system.sent
  events : ∀ event state, system.server.readEvents event = some state →
    system.requests state.rid = none ∧ state.rid ≤ system.sent
  tids : ∀ id id' process process' coordinator coordinator',
    system.coordinators id = some (process, coordinator) →
    system.coordinators id' = some (process', coordinator') →
    coordinator.tid = coordinator'.tid → id = id'
  created : ∀ id, system.coordinators id ≠ none → id < system.created
  within : ∀ id process coordinator, system.coordinators id = some (process, coordinator) →
    coordinator.readNodes ⊆ {0} ∧ coordinator.writeNodes ⊆ {0}

variable {system system' : System} {id id' process tid rid : Nat}
  {client : SimpleResolutionClient} {coordinator coordinator' : Coordinator}

theorem Undisturbed.of_eq (server : system'.server = system.server)
    (calls : system'.calls = system.calls) (requests : system'.requests = system.requests) :
    Undisturbed system system' id tid where
  calls := fun _ _ => by rw [calls]
  requests := fun _ _ _ => by rw [requests]
  replies := fun _ _ same => by rw [server, same]
  known := fun same => by rwa [server]
  knownWrite := fun same => by rwa [server]

theorem Undisturbed.trans {system'' : System} (first : Undisturbed system system' id tid)
    (second : Undisturbed system' system'' id tid) : Undisturbed system system'' id tid where
  calls := fun rid tag => (second.calls rid tag).trans (first.calls rid tag)
  requests := fun rid tag call =>
    (second.requests rid tag ((first.calls rid tag).2 call)).trans (first.requests rid tag call)
  replies := fun rid reply same => second.replies rid reply (first.replies rid reply same)
  known := fun same => second.known (first.known same)
  knownWrite := fun same => second.knownWrite (first.knownWrite same)

/-! ## Storing a Coordinator -/

theorem undisturbed_setCoordinator :
    Undisturbed system (system.setCoordinator id process client coordinator) id' tid :=
  .of_eq rfl rfl rfl

/-- The Coordinators after one of them has been stored. -/
theorem coordinators_setCoordinator
    (present : (system.setCoordinator id process client coordinator).coordinators id' =
      some (process', coordinator')) :
    id' = id ∧ process' = process ∧ coordinator' = coordinator ∨
      id' ≠ id ∧ system.coordinators id' = some (process', coordinator') := by
  by_cases same : id' = id
  · subst same
    simp only [System.setCoordinator, Function.update_self, Option.some.injEq,
      Prod.mk.injEq] at present
    exact .inl ⟨rfl, present.1.symm, present.2.symm⟩
  · exact .inr ⟨same, by simpa [System.setCoordinator, same] using present⟩

/-- What a Coordinator and its client may turn into. -/
structure Becomes (client client' : SimpleResolutionClient)
    (coordinator coordinator' : Coordinator) : Prop where
  cached : client'.Cached
  more : client.tag ≤ client'.tag
  few : client'.tag < 2147483648
  tid : coordinator'.tid = coordinator.tid
  within : coordinator'.readNodes ⊆ {0} ∧ coordinator'.writeNodes ⊆ {0}

theorem Orderly.setCoordinator (orderly : Orderly system)
    (present : system.coordinators id = some (process, coordinator))
    (becomes : Becomes (system.processes process).client client coordinator coordinator') :
    Orderly (system.setCoordinator id process client coordinator') := by
  have processOf : ∀ other process'' coordinator'',
      system.coordinators other = some (process'', coordinator'') →
      ∃ coordinator₁, (system.setCoordinator id process client coordinator').coordinators
        other = some (process'', coordinator₁) := by
    intro other process'' coordinator'' present'
    by_cases same : other = id
    · subst same
      rw [present] at present'
      cases present'
      exact ⟨coordinator', by simp [System.setCoordinator]⟩
    · exact ⟨coordinator'', by simpa [System.setCoordinator, same] using present'⟩
  have processOf' : ∀ other process'' coordinator'',
      (system.setCoordinator id process client coordinator').coordinators other =
        some (process'', coordinator'') →
      ∃ coordinator₁, system.coordinators other = some (process'', coordinator₁) ∧
        coordinator''.tid = coordinator₁.tid := by
    intro other process'' coordinator'' present'
    rcases coordinators_setCoordinator present' with ⟨rfl, rfl, rfl⟩ | ⟨-, old⟩
    · exact ⟨coordinator, present, becomes.tid⟩
    · exact ⟨coordinator'', old, rfl⟩
  have tagOf : ∀ other, (system.processes other).client.tag ≤
      ((system.setCoordinator id process client coordinator').processes other).client.tag := by
    intro other
    by_cases same : other = process
    · subst same
      simpa [System.setCoordinator] using becomes.more
    · simp [System.setCoordinator, same]
  refine
    { nodes := orderly.nodes
      unlocked := orderly.unlocked
      cached := fun other => ?_
      few := fun other => ?_
      entries := orderly.entries
      writeEntries := orderly.writeEntries
      calls := fun rid other tag call => ?_
      tags := ?_
      requests := orderly.requests
      replies := orderly.replies
      events := orderly.events
      tids := ?_
      created := fun other some => ?_
      within := fun other process'' coordinator'' present' => ?_ }
  · by_cases same : other = process
    · subst same
      simpa [System.setCoordinator] using becomes.cached
    · simpa [System.setCoordinator, same] using orderly.cached other
  · by_cases same : other = process
    · subst same
      simpa [System.setCoordinator] using becomes.few
    · simpa [System.setCoordinator, same] using orderly.few other
  · obtain ⟨sent, process'', coordinator'', present', below⟩ := orderly.calls rid other tag call
    obtain ⟨coordinator₁, present₁⟩ := processOf other _ _ present'
    exact ⟨sent, process'', coordinator₁, present₁, fun number same =>
      (below number same).trans_le (tagOf process'')⟩
  · intro rid rid' other other' number process'' coordinator₁ coordinator₂ call call' present₁
      present₂
    obtain ⟨_, old₁, -⟩ := processOf' other _ _ present₁
    obtain ⟨_, old₂, -⟩ := processOf' other' _ _ present₂
    exact orderly.tags rid rid' other other' number process'' _ _ call call' old₁ old₂
  · intro other other' process₁ process₂ coordinator₁ coordinator₂ present₁ present₂ same
    obtain ⟨_, old₁, tid₁⟩ := processOf' other _ _ present₁
    obtain ⟨_, old₂, tid₂⟩ := processOf' other' _ _ present₂
    exact orderly.tids other other' _ _ _ _ old₁ old₂ (by rw [← tid₁, ← tid₂, same])
  · obtain ⟨⟨process'', coordinator''⟩, present'⟩ := Option.ne_none_iff_exists'.1 some
    obtain ⟨_, old, -⟩ := processOf' other _ _ present'
    exact orderly.created other (by simp [old])
  · rcases coordinators_setCoordinator present' with ⟨rfl, rfl, rfl⟩ | ⟨-, old⟩
    · exact becomes.within
    · exact orderly.within other _ _ old

/-! ## Sending a message -/

@[simp]
theorem processes_send (messages : List Message) :
    (system.send id messages).processes = system.processes := by
  induction messages generalizing system with
  | nil => rfl
  | cons message messages ih => exact ih

theorem undisturbed_send (orderly : Orderly system) (differs : id' ≠ id) (message : Message) :
    Undisturbed system (system.send id [message]) id' tid where
  calls := by
    intro rid tag
    by_cases same : rid = system.sent + 1
    · subst same
      have unused : system.calls (system.sent + 1) ≠ some ⟨id', tag⟩ := fun call => by
        have := (orderly.calls _ _ _ call).1
        omega
      simp [System.send, unused, differs.symm]
    · simp [System.send, same]
  requests := by
    intro rid tag call
    have : rid ≠ system.sent + 1 := by
      have := (orderly.calls _ _ _ call).1
      omega
    simp [System.send, this]
  replies := fun _ _ same => same
  known := fun same => same
  knownWrite := fun same => same

theorem underway_send (silent : system.Silent id) (message : Message) :
    (system.send id [message]).Underway id message.tag (system.sent + 1) := by
  refine ⟨by simp [System.send], fun rid' tag' call => ?_⟩
  by_contra differs
  exact silent rid' tag' (by simpa [System.send, differs] using call)

theorem requests_send (message : Message) :
    (system.send id [message]).requests (system.sent + 1) = some message.request := by
  simp [System.send]

theorem Orderly.send {message : Message} (orderly : Orderly system)
    (present : system.coordinators id = some (process, coordinator))
    (tag : ∀ number, message.tag = some number →
      number < (system.processes process).client.tag ∧
      ∀ rid id' coordinator', system.calls rid = some ⟨id', some number⟩ →
        system.coordinators id' ≠ some (process, coordinator')) :
    Orderly (system.send id [message]) := by
  have callOf : ∀ rid other tag, (system.send id [message]).calls rid = some ⟨other, tag⟩ →
      rid = system.sent + 1 ∧ other = id ∧ tag = message.tag ∨
        system.calls rid = some ⟨other, tag⟩ := by
    intro rid other tag call
    by_cases same : rid = system.sent + 1
    · subst same
      simp only [System.send, Function.update_self, Option.some.injEq, Call.mk.injEq] at call
      exact .inl ⟨rfl, call.1.symm, call.2.symm⟩
    · exact .inr (by simpa [System.send, same] using call)
  refine
    { nodes := orderly.nodes
      unlocked := orderly.unlocked
      cached := orderly.cached
      few := orderly.few
      entries := orderly.entries
      writeEntries := orderly.writeEntries
      calls := fun rid other tag' call => ?_
      tags := ?_
      requests := fun rid requested => ?_
      replies := fun rid replied => ?_
      events := fun event state started => ?_
      tids := orderly.tids
      created := orderly.created
      within := orderly.within }
  · rcases callOf rid other tag' call with ⟨rfl, rfl, rfl⟩ | old
    · exact ⟨le_rfl, process, coordinator, present, fun number same => (tag number same).1⟩
    · obtain ⟨sent, rest⟩ := orderly.calls rid other tag' old
      exact ⟨sent.trans (Nat.le_succ _), rest⟩
  · intro rid rid' other other' number process' coordinator₁ coordinator₂ call call' present₁
      present₂
    rcases callOf rid other _ call with ⟨rfl, rfl, same⟩ | old <;>
      rcases callOf rid' other' _ call' with ⟨rfl, rfl, same'⟩ | old'
    · rfl
    · obtain ⟨rfl, -⟩ : process = process' ∧ coordinator = coordinator₁ := by
        simpa using present.symm.trans present₁
      exact absurd present₂ ((tag number same.symm).2 rid' other' coordinator₂ old')
    · obtain ⟨rfl, -⟩ : process = process' ∧ coordinator = coordinator₂ := by
        simpa using present.symm.trans present₂
      exact absurd present₁ ((tag number same'.symm).2 rid other coordinator₁ old)
    · exact orderly.tags rid rid' other other' number process' _ _ old old' present₁ present₂
  · by_cases same : rid = system.sent + 1
    · simp [System.send, same]
    · have old := orderly.requests rid (by simpa [System.send, same] using requested)
      simpa [System.send, same] using old
  · obtain ⟨taken, sent⟩ := orderly.replies rid replied
    have : rid ≠ system.sent + 1 := by omega
    exact ⟨by simpa [System.send, this] using taken, sent.trans (Nat.le_succ _)⟩
  · obtain ⟨taken, sent⟩ := orderly.events event state started
    have : state.rid ≠ system.sent + 1 := by omega
    exact ⟨by simpa [System.send, this] using taken, sent.trans (Nat.le_succ _)⟩

/-! ## Taking a call back -/

/-- A reply has been collected. -/
def System.collected (system : System) (rid : Nat) : System :=
  { system with calls := Function.update system.calls rid none }

theorem calls_collected {rid' : Nat} {call : Call}
    (present : (system.collected rid).calls rid' = some call) :
    rid' ≠ rid ∧ system.calls rid' = some call := by
  by_cases same : rid' = rid
  · subst same
    simp [System.collected] at present
  · exact ⟨same, by simpa [System.collected, same] using present⟩

theorem undisturbed_collected {tag : Option Nat} (call : system.calls rid = some ⟨id, tag⟩)
    (differs : id' ≠ id) : Undisturbed system (system.collected rid) id' tid where
  calls := by
    intro rid' tag'
    refine ⟨fun present => (calls_collected present).2, fun present => ?_⟩
    have : rid' ≠ rid := by
      rintro rfl
      rw [call] at present
      cases present
      exact differs rfl
    simpa [System.collected, this] using present
  requests := fun _ _ _ => rfl
  replies := fun _ _ same => same
  known := fun same => same
  knownWrite := fun same => same

theorem silent_collected {tag : Option Nat} (underway : system.Underway id tag rid) :
    (system.collected rid).Silent id := by
  intro rid' tag' call
  obtain ⟨differs, present⟩ := calls_collected call
  exact differs (underway.2 rid' tag' present)

theorem Orderly.collected (orderly : Orderly system) (taken : system.requests rid = none) :
    Orderly (system.collected rid) :=
  { orderly with
    calls := fun rid' other tag call => orderly.calls rid' other tag (calls_collected call).2
    tags := fun rid₁ rid₂ other other' number process coordinator₁ coordinator₂ call call' =>
      orderly.tags rid₁ rid₂ other other' number process _ _ (calls_collected call).2
        (calls_collected call').2
    requests := by
      intro rid' requested
      have differs : rid' ≠ rid := by
        rintro rfl
        exact requested taken
      simpa [System.collected, differs] using orderly.requests rid' requested }

end Mvtx.Cluster
