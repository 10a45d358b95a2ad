import Mvtx.Cluster.OneRound
import Mvtx.Cluster.Serializable
import Mvtx.Server.Rename

/-!
# Coordinators and their transactions

A system with messages and a world without them run side by side.  A request of
a Coordinator takes effect in the world when the server handles it, so between
the sending of a message and the collecting of its reply the Coordinator and its
transaction stand in different places: `Follows` says where.

The world numbers the requests in the order in which they are handled, and the
system in the order in which they are sent.  `Refines` relates the two states,
with a permutation that takes the ones to the others.
-/

namespace Mvtx.Cluster

open Lib Lib.Serial Server Client

/-- The transaction of a Coordinator, in some stage. -/
def transactionOf (coordinator : Coordinator) (stage : Stage) : Transaction where
  tid := coordinator.tid
  startTs := coordinator.startTs
  readNodes := coordinator.readNodes
  writeNodes := coordinator.writeNodes
  pendWrites := coordinator.pendWrites
  returned := coordinator.returned
  stage := stage

/--
Where the transaction of a Coordinator stands, and what the Coordinator has
asked for without any effect in the world so far.
-/
inductive Follows (system : System) (names : Nat → Nat) (world : World) (id : Nat)
    (coordinator : Coordinator) : List (Operation Nat String) → Prop where
  | ready
      (control : coordinator.control = .ready)
      (stands : world.ready id = .ok (transactionOf coordinator .active)) :
      Follows system names world id coordinator []
  | readAsked
      {rid key node : Nat}
      {tag : Option Nat}
      (control : coordinator.control = .reading key node)
      (call : system.calls rid = some ⟨id, tag⟩)
      (requested : system.requests rid ≠ none)
      (unwritten : coordinator.pendWrites key = none)
      (stands : world.ready id = .ok (transactionOf coordinator .active)) :
      Follows system names world id coordinator [.read key]
  | readServed
      {rid key node : Nat}
      {tag : Option Nat}
      (control : coordinator.control = .reading key node)
      (call : system.calls rid = some ⟨id, tag⟩)
      (taken : system.requests rid = none)
      (stands : world.transactions id =
        some (transactionOf coordinator (.reading (names rid) key node))) :
      Follows system names world id coordinator []
  | writeAsked
      {rid key node : Nat}
      {value : String}
      {pendWrites : Nat → Option String}
      {tag : Option Nat}
      (control : coordinator.control = .writing node)
      (call : system.calls rid = some ⟨id, tag⟩)
      (requested : system.requests rid = some (.write coordinator.tid key value))
      (written : coordinator.pendWrites = Function.update pendWrites key (some value))
      (stands : world.ready id =
        .ok { transactionOf coordinator .active with pendWrites := pendWrites }) :
      Follows system names world id coordinator [.write key value]
  | writeServed
      {rid node : Nat}
      {tag : Option Nat}
      (control : coordinator.control = .writing node)
      (call : system.calls rid = some ⟨id, tag⟩)
      (taken : system.requests rid = none)
      (stands : world.transactions id =
        some { transactionOf coordinator .active with
          writeNodes := insert node coordinator.writeNodes }) :
      Follows system names world id coordinator []
  | phaseOne
      {committing : Bool}
      {loop : RoundLoop}
      (control : coordinator.control = .phaseOne committing loop)
      (unserved : ∀ rid tag, system.calls rid = some ⟨id, tag⟩ →
        system.requests rid ≠ none ∧ loop.remNodes ≠ ∅)
      (stands : world.transactions id =
        some (transactionOf coordinator (.phaseOne committing loop.remNodes loop.vote))) :
      Follows system names world id coordinator []
  | phaseOneServed
      {rid : Nat}
      {tag : Option Nat}
      {committing vote : Bool}
      {loop : RoundLoop}
      {nodes : Finset Nat}
      (control : coordinator.control = .phaseOne committing loop)
      (call : system.calls rid = some ⟨id, tag⟩)
      (taken : system.requests rid = none)
      (replied : system.server.replies rid = some (.p1c nodes vote))
      (stands : world.transactions id =
        some (transactionOf coordinator
          (.phaseOne committing (loop.remNodes \ nodes) (loop.vote && vote)))) :
      Follows system names world id coordinator []
  | phaseTwo
      {committing vote : Bool}
      {loop : RoundLoop}
      (control : coordinator.control = .phaseTwo committing vote loop)
      (unserved : ∀ rid tag, system.calls rid = some ⟨id, tag⟩ →
        system.requests rid ≠ none ∧ loop.remNodes ≠ ∅)
      (stands : world.transactions id =
        some (transactionOf coordinator (.phaseTwo committing vote loop.remNodes))) :
      Follows system names world id coordinator []
  | phaseTwoServed
      {rid : Nat}
      {tag : Option Nat}
      {committing vote : Bool}
      {loop : RoundLoop}
      {nodes : Finset Nat}
      (control : coordinator.control = .phaseTwo committing vote loop)
      (call : system.calls rid = some ⟨id, tag⟩)
      (taken : system.requests rid = none)
      (replied : system.server.replies rid = some (.p2c nodes))
      (stands : world.transactions id =
        some (transactionOf coordinator (.phaseTwo committing vote (loop.remNodes \ nodes)))) :
      Follows system names world id coordinator []
  | ended
      {committing vote : Bool}
      (control : coordinator.control = .ended committing vote)
      (stands : world.transactions id =
        some (transactionOf coordinator (.ended committing vote))) :
      Follows system names world id coordinator []

/-- What a call asks for in the name of a Coordinator. -/
def Label.operation (id : Nat) : Label → Option (Operation Nat String)
  | .read other key => if other = id then some (.read key) else none
  | .write other key value => if other = id then some (.write key value) else none
  | .start _ _ _ | .commit _ | .abort _ | .turn _ | .receive _ _ | .handle _ _ _ => none

/-- What a Coordinator is asked for in the course of a run. -/
def requested (labels : List Label) (id : Nat) : List (Operation Nat String) :=
  labels.filterMap (Label.operation id)

/-- The step of the world that a step of the system is, if it is one. -/
def System.moveOf (system : System) : Label → Option Move
  | .start process tid startTs => some (.start process tid startTs)
  | .read id key =>
      match system.coordinators id with
      | some (_, coordinator) =>
          if coordinator.pendWrites key = none then none else some (.read id key 0)
      | none => none
  | .commit id => some (.finish id true)
  | .abort id => some (.finish id false)
  | .turn id =>
      match system.coordinators id with
      | some (_, coordinator) =>
          match coordinator.control with
          | .phaseOne _ loop => if loop.remNodes = ∅ then some (.phaseOne id false) else none
          | .phaseTwo _ _ loop => if loop.remNodes = ∅ then some (.phaseTwo id) else none
          | .ready | .reading _ _ | .writing _ | .ended _ _ => none
      | none => none
  | .handle rid event unset =>
      match system.calls rid, system.requests rid with
      | some call, some (.read _ _ key) => some (.read call.coordinator key event)
      | some call, some (.write _ key value) => some (.write call.coordinator key value)
      | some call, some (.p1c _ _ _ _ _) => some (.phaseOne call.coordinator unset)
      | some call, some (.p2c _ _) => some (.phaseTwo call.coordinator)
      | _, _ => none
  | .write _ _ _ | .receive _ _ => none

/-- A run of the system and a run of the world have come to matching states. -/
structure Refines (labels : List Label) (system : System) (moves : List Move) (world : World)
    (names : Equiv.Perm Nat) : Prop where
  consistent : Consistent system
  server : world.server = system.server.rename names
  begun : world.begun = system.created
  curIds : ∀ process, world.curIds process = (system.processes process).curId
  numbered : ∀ rid ≤ system.sent, system.requests rid = none → names rid ≤ world.sent
  follows : ∀ id process coordinator, system.coordinators id = some (process, coordinator) →
    ∃ waiting, Follows system names world id coordinator waiting ∧
      requested labels id = program moves id ++ waiting
  absent : ∀ id, system.coordinators id = none →
    world.transactions id = none ∧ requested labels id = program moves id

variable {system system' : System} {world world' : World} {names names' : Equiv.Perm Nat}
  {labels : List Label} {moves : List Move}
  {id other process rid : Nat} {coordinator coordinator' : Coordinator}
  {waiting : List (Operation Nat String)} {transaction : Transaction}

/-! ## The others -/

theorem World.ready_congr (found : world.ready id = .ok transaction)
    (same : world'.transactions id = world.transactions id)
    (kept : ∀ rid reply, world.server.replies rid = some reply →
      world'.server.replies rid = some reply) :
    world'.ready id = .ok transaction := by
  unfold World.ready at found ⊢
  rw [same]
  split at found
  · exact absurd found (by simp)
  · split at found
    · next stage => simpa only [stage] using found
    · next stage =>
        split at found
        · next replied => simpa only [stage, kept _ _ replied] using found
        · exact absurd found (by simp)
    · exact absurd found (by simp)

/-- What the others do leaves a transaction where it stands. -/
theorem Follows.frame {names names' : Nat → Nat} {tid : Nat}
    (follows : Follows system names world id coordinator waiting)
    (same : Undisturbed system system' id tid)
    (agree : ∀ rid tag, system.calls rid = some ⟨id, tag⟩ → system.requests rid = none →
      names' rid = names rid)
    (transactions : world'.transactions id = world.transactions id)
    (kept : ∀ rid reply, world.server.replies rid = some reply →
      world'.server.replies rid = some reply) :
    Follows system' names' world' id coordinator waiting := by
  have call' : ∀ {rid tag}, system.calls rid = some ⟨id, tag⟩ →
      system'.calls rid = some ⟨id, tag⟩ ∧ system'.requests rid = system.requests rid :=
    fun call => ⟨(same.calls _ _).2 call, same.requests _ _ call⟩
  have unserved' : ∀ {nodes : Finset Nat}, (∀ rid tag, system.calls rid = some ⟨id, tag⟩ →
      system.requests rid ≠ none ∧ nodes ≠ ∅) →
      ∀ rid tag, system'.calls rid = some ⟨id, tag⟩ →
        system'.requests rid ≠ none ∧ nodes ≠ ∅ := by
    intro nodes unserved rid tag call
    have old := (same.calls rid tag).1 call
    rw [same.requests rid tag old]
    exact unserved rid tag old
  cases follows with
  | ready control stands => exact .ready control (World.ready_congr stands transactions kept)
  | readAsked control call requested unwritten stands =>
      obtain ⟨here, requests⟩ := call' call
      exact .readAsked control here (requests ▸ requested) unwritten
        (World.ready_congr stands transactions kept)
  | readServed control call taken stands =>
      obtain ⟨here, requests⟩ := call' call
      refine .readServed control here (requests.trans taken) ?_
      rw [transactions, stands, agree _ _ call taken]
  | writeAsked control call requested written stands =>
      obtain ⟨here, requests⟩ := call' call
      exact .writeAsked control here (requests.trans requested) written
        (World.ready_congr stands transactions kept)
  | writeServed control call taken stands =>
      obtain ⟨here, requests⟩ := call' call
      exact .writeServed control here (requests.trans taken) (transactions.trans stands)
  | phaseOne control unserved stands =>
      exact .phaseOne control (unserved' unserved) (transactions.trans stands)
  | phaseOneServed control call taken replied stands =>
      obtain ⟨here, requests⟩ := call' call
      exact .phaseOneServed control here (requests.trans taken) (same.replies _ _ replied)
        (transactions.trans stands)
  | phaseTwo control unserved stands =>
      exact .phaseTwo control (unserved' unserved) (transactions.trans stands)
  | phaseTwoServed control call taken replied stands =>
      obtain ⟨here, requests⟩ := call' call
      exact .phaseTwoServed control here (requests.trans taken) (same.replies _ _ replied)
        (transactions.trans stands)
  | ended control stands => exact .ended control (transactions.trans stands)

theorem requested_append (labels : List Label) (label : Label) (id : Nat) :
    requested (labels ++ [label]) id = requested labels id ++ (label.operation id).toList := by
  rw [requested, List.filterMap_append, requested]
  cases operation : label.operation id <;> simp [operation]

/-! ## One Coordinator moves -/

namespace Refines

theorem first : Refines [] (.first .initial) [] .first (.refl Nat) where
  consistent := .first
  server := (rename_refl _).symm
  begun := rfl
  curIds := fun _ => rfl
  numbered := fun _ below _ => below
  follows := by simp [System.first]
  absent := fun _ _ => ⟨rfl, rfl⟩

/-- One Coordinator goes on, and its transaction with it. -/
theorem change (refines : Refines labels system moves world names) (label : Label)
    (move : Option Move)
    (present : system.coordinators id = some (process, coordinator))
    (consistent : Consistent system')
    (stored : system'.coordinators =
      Function.update system.coordinators id (some (process, coordinator')))
    (others : ∀ other, other ≠ id → ∃ tid, Undisturbed system system' other tid)
    (created : system'.created = system.created)
    (curIds : ∀ process, (system'.processes process).curId = (system.processes process).curId)
    (server : world'.server = system'.server.rename names')
    (begun : world'.begun = world.begun ∧ world'.curIds = world.curIds)
    (numbered : ∀ rid ≤ system'.sent, system'.requests rid = none → names' rid ≤ world'.sent)
    (agree : ∀ rid other tag, other ≠ id → system.calls rid = some ⟨other, tag⟩ →
      system.requests rid = none → names' rid = names rid)
    (transactions : ∀ other, other ≠ id → world'.transactions other = world.transactions other)
    (kept : ∀ rid reply, world.server.replies rid = some reply →
      world'.server.replies rid = some reply)
    (own : ∀ other, other ≠ id → label.operation other = none ∧
      ∀ step ∈ move, step.operation other = none)
    (follows : Follows system' names' world' id coordinator' waiting)
    (whole : requested (labels ++ [label]) id = program (moves ++ move.toList) id ++ waiting) :
    Refines (labels ++ [label]) system' (moves ++ move.toList) world' names' := by
  have asked : ∀ other, other ≠ id → requested (labels ++ [label]) other = requested labels other :=
    fun other differs => by simp [requested_append, (own other differs).1]
  have done : ∀ other, other ≠ id →
      program (moves ++ move.toList) other = program moves other := by
    intro other differs
    cases move with
    | none => simp
    | some step => simp [program_append, (own other differs).2 step rfl]
  refine
    { consistent := consistent
      server := server
      begun := begun.1.trans (refines.begun.trans created.symm)
      curIds := fun process => by rw [begun.2, curIds, refines.curIds]
      numbered := numbered
      follows := fun other process' current here => ?_
      absent := fun other none' => ?_ }
  · rw [stored] at here
    by_cases same : other = id
    · subst same
      obtain ⟨rfl, rfl⟩ : process = process' ∧ coordinator' = current := by simpa using here
      exact ⟨waiting, follows, whole⟩
    · rw [Function.update_of_ne same] at here
      obtain ⟨waiting', stands, whole'⟩ := refines.follows other process' current here
      obtain ⟨tid, undisturbed⟩ := others other same
      refine ⟨waiting', stands.frame undisturbed (fun rid tag => agree rid other tag same)
        (transactions other same) kept, ?_⟩
      rw [asked other same, done other same, whole']
  · have differs : other ≠ id := by
      rintro rfl
      simp [stored] at none'
    rw [stored, Function.update_of_ne differs] at none'
    rw [transactions other differs, asked other differs, done other differs]
    exact refines.absent other none'

/-- One Coordinator goes on, and the server does nothing. -/
theorem store (refines : Refines labels system moves world names) (label : Label)
    (move : Option Move) (world' : World)
    (present : system.coordinators id = some (process, coordinator))
    (consistent : Consistent system')
    (stored : system'.coordinators =
      Function.update system.coordinators id (some (process, coordinator')))
    (others : ∀ other, other ≠ id → Undisturbed system system' other 0)
    (created : system'.created = system.created ∧ system'.server = system.server)
    (curIds : ∀ process, (system'.processes process).curId = (system.processes process).curId)
    (taken : ∀ rid ≤ system'.sent, system'.requests rid = none →
      rid ≤ system.sent ∧ system.requests rid = none)
    (begun : world'.begun = world.begun ∧ world'.curIds = world.curIds)
    (server : world'.server = world.server ∧ world'.handled = world.handled)
    (transactions : ∀ other, other ≠ id → world'.transactions other = world.transactions other)
    (own : ∀ other, other ≠ id → label.operation other = none ∧
      ∀ step ∈ move, step.operation other = none)
    (follows : Follows system' names world' id coordinator' waiting)
    (whole : requested (labels ++ [label]) id = program (moves ++ move.toList) id ++ waiting) :
    Refines (labels ++ [label]) system' (moves ++ move.toList) world' names := by
  refine refines.change label move present consistent stored
    (fun other differs => ⟨0, others other differs⟩)
    created.1 curIds (by rw [server.1, created.2, refines.server]) begun
    (fun rid below none' => ?_) (fun _ _ _ _ _ _ => rfl) transactions
    (fun rid reply same => by rwa [server.1]) own follows whole
  obtain ⟨below', none''⟩ := taken rid below none'
  rw [World.sent, server.2]
  exact refines.numbered rid below' none''

end Refines

end Mvtx.Cluster
