import Mvtx.Cluster.Follows

/-!
# Messages and handlers

Every run of the system is a run of the world with the messages left out, if
transactions have distinct IDs and no client runs out of tags.  A call that
sends a message and the collecting of a reply are no steps of the world; the
handling of a request is the step of its transaction.
-/

namespace Mvtx.Cluster

open Lib Lib.Serial Server Client

variable {system system' : System} {world world' : World} {names : Equiv.Perm Nat}
  {labels : List Label} {moves : List Move} {label : Label} {id other process rid : Nat}
  {client : SimpleResolutionClient} {coordinator coordinator' : Coordinator}
  {waiting : List (Operation Nat String)} {transaction : Transaction}

/-- A run of the world of one step at most takes the place of a step of the system. -/
def Stepped (world : World) (move : Option Move) (world' : World) : Prop :=
  match move with
  | none => world' = world
  | some move => world.step getNode move = .ok world'

namespace Refines

/-! ## The steps of a Coordinator -/

theorem curIds_setCoordinator (system : System) (id process other : Nat)
    (client : SimpleResolutionClient) (coordinator : Coordinator) :
    ((system.setCoordinator id process client coordinator).processes other).curId =
      (system.processes other).curId := by
  by_cases same : other = process
  · subst same
    simp [System.setCoordinator]
  · simp [System.setCoordinator, same]

/-- A Coordinator sends a message. -/
theorem ask {message : Message} (refines : Refines labels system moves world names)
    (present : system.coordinators id = some (process, coordinator))
    (consistent : Consistent
      ((system.setCoordinator id process client coordinator').send id [message]))
    (own : ∀ other, other ≠ id → label.operation other = none)
    (follows : Follows ((system.setCoordinator id process client coordinator').send id [message])
      names world id coordinator' waiting)
    (whole : requested (labels ++ [label]) id = program moves id ++ waiting) :
    Refines (labels ++ [label])
      ((system.setCoordinator id process client coordinator').send id [message]) moves world
        names := by
  have undisturbed : ∀ other, other ≠ id → Undisturbed system
      ((system.setCoordinator id process client coordinator').send id [message]) other 0 :=
    fun other differs =>
      (undisturbed_send refines.consistent.orderly differs message).trans
        undisturbed_setCoordinator
  have taken : ∀ rid ≤ system.sent + 1,
      Function.update system.requests (system.sent + 1) (some message.request) rid = none →
      rid ≤ system.sent ∧ system.requests rid = none := by
    intro rid below none'
    have differs : rid ≠ system.sent + 1 := by
      rintro rfl
      simp at none'
    exact ⟨by omega, by simpa [differs] using none'⟩
  have refined := refines.store label none world present consistent rfl undisturbed ⟨rfl, rfl⟩
    (fun other => curIds_setCoordinator system id process other client coordinator')
    taken ⟨rfl, rfl⟩ ⟨rfl, rfl⟩ (fun _ _ => rfl) (fun other differs => ⟨own other differs, by simp⟩)
    follows (by simpa using whole)
  simpa using refined

/-- A Coordinator goes on without a message. -/
theorem goOn (refines : Refines labels system moves world names) (label : Label)
    (move : Option Move)
    (present : system.coordinators id = some (process, coordinator))
    (consistent : Consistent (system.setCoordinator id process client coordinator'))
    (begun : world'.begun = world.begun ∧ world'.curIds = world.curIds)
    (server : world'.server = world.server ∧ world'.handled = world.handled)
    (transactions : ∀ other, other ≠ id → world'.transactions other = world.transactions other)
    (own : ∀ other, other ≠ id → label.operation other = none ∧
      ∀ step ∈ move, step.operation other = none)
    (follows : Follows (system.setCoordinator id process client coordinator') names world' id
      coordinator' waiting)
    (whole : requested (labels ++ [label]) id = program (moves ++ move.toList) id ++ waiting) :
    Refines (labels ++ [label]) (system.setCoordinator id process client coordinator')
      (moves ++ move.toList) world' names :=
  refines.store label move world' present consistent rfl
    (fun _ _ => undisturbed_setCoordinator) ⟨rfl, rfl⟩
    (fun other => curIds_setCoordinator system id process other client coordinator')
    (fun _ below none' => ⟨below, none'⟩) begun server transactions own follows whole

/-- A Coordinator that is ready, and its transaction. -/
theorem of_ready (refines : Refines labels system moves world names)
    (present : system.coordinators id = some (process, coordinator))
    (control : coordinator.control = .ready) :
    world.ready id = .ok (transactionOf coordinator .active) ∧
      requested labels id = program moves id := by
  obtain ⟨waiting, follows, whole⟩ := refines.follows id process coordinator present
  cases follows with
  | ready _ stands => exact ⟨stands, by simpa using whole⟩
  | readAsked other | readServed other | writeAsked other | writeServed other | phaseOne other
  | phaseOneServed other | phaseTwo other | phaseTwoServed other | ended other =>
      exact absurd (control.symm.trans other) (by simp)

theorem ready_store (world : World) (active : transaction.stage = .active) :
    (world.store id transaction).ready id = .ok transaction := by
  simp [World.ready, World.store, active]

/-- A call of `read`. -/
theorem read {key : Nat} (refines : Refines labels system moves world names)
    (stepped : system.step getNode (.read id key) = .ok system') :
    ∃ world', Stepped world (system.moveOf (.read id key)) world' ∧
      Refines (labels ++ [.read id key]) system'
        (moves ++ (system.moveOf (.read id key)).toList) world' names := by
  have consistent := refines.consistent.read stepped
  obtain ⟨⟨process, coordinator⟩, ready, stepped⟩ := exists_of_bind stepped
  obtain ⟨present, control⟩ := Consistent.readyCoordinator_eq_ok ready
  obtain ⟨stands, whole⟩ := refines.of_ready present control
  have own : ∀ other, other ≠ id → (Label.read id key).operation other = none :=
    fun other differs => if_neg (Ne.symm differs)
  cases written : coordinator.pendWrites key with
  | some value =>
      simp only [Coordinator.read, written] at stepped
      obtain rfl := Except.ok.inj stepped
      have move : system.moveOf (.read id key) = some (.read id key 0) := by
        simp [System.moveOf, present, written]
      rw [move]
      refine ⟨world.store id { transactionOf coordinator .active with
        returned := coordinator.returned ++ [(key, some value)] }, ?_, ?_⟩
      · simp [Stepped, World.step, stands, transactionOf, written, bind, Except.bind, pure,
          Except.pure]
      · refine refines.goOn _ (some (.read id key 0)) present consistent ⟨rfl, rfl⟩ ⟨rfl, rfl⟩
          (fun other differs => Function.update_of_ne differs ..)
          (fun other differs => ⟨own other differs, ?_⟩) (.ready control (ready_store _ rfl)) ?_
        · simp [Move.operation, Ne.symm differs]
        · simp [requested_append, program_append, whole, Label.operation, Move.operation]
  | none =>
      obtain ⟨client, sent, -⟩ := sendSync_eq (refines.consistent.orderly.cached process)
        (getNode key) (.read coordinator.tid coordinator.startTs key)
      simp only [Coordinator.read, written, sent] at stepped
      obtain rfl := Except.ok.inj stepped
      have move : system.moveOf (.read id key) = none := by
        simp [System.moveOf, present, written]
      rw [move]
      refine ⟨world, rfl, ?_⟩
      rw [Option.toList_none, List.append_nil]
      refine refines.ask present consistent own
        (.readAsked rfl (Function.update_self ..) ?_ written stands) ?_
      · simp [System.send]
      · simp [requested_append, whole, Label.operation]

/-- A call of `write`. -/
theorem write {key : Nat} {value : String} (refines : Refines labels system moves world names)
    (stepped : system.step getNode (.write id key value) = .ok system') :
    Refines (labels ++ [.write id key value]) system' moves world names := by
  have consistent := refines.consistent.write stepped
  obtain ⟨⟨process, coordinator⟩, ready, stepped⟩ := exists_of_bind stepped
  obtain ⟨present, control⟩ := Consistent.readyCoordinator_eq_ok ready
  obtain ⟨stands, whole⟩ := refines.of_ready present control
  obtain ⟨client, sent, -⟩ := sendSync_eq (refines.consistent.orderly.cached process)
    (getNode key) (.write coordinator.tid key value)
  simp only [Coordinator.write, sent] at stepped
  obtain rfl := Except.ok.inj stepped
  refine refines.ask present consistent (fun other differs => if_neg (Ne.symm differs))
    (.writeAsked rfl (Function.update_self ..) ?_ rfl stands) ?_
  · simp [System.send]
  · simp [requested_append, whole, Label.operation]

/-- `commit` or `abort` is called. -/
theorem finish {committing : Bool} (refines : Refines labels system moves world names)
    (label : Label)
    (ready : system.readyCoordinator id = .ok (process, coordinator))
    (consistent : Consistent (system.setCoordinator id process (system.processes process).client
      (coordinator.finish committing)))
    (silent : ∀ id, label.operation id = none) :
    ∃ world', world.step getNode (.finish id committing) = .ok world' ∧
      Refines (labels ++ [label]) (system.setCoordinator id process
          (system.processes process).client (coordinator.finish committing))
        (moves ++ [.finish id committing]) world' names := by
  obtain ⟨present, control⟩ := Consistent.readyCoordinator_eq_ok ready
  obtain ⟨stands, whole⟩ := refines.of_ready present control
  have agrees := refines.consistent.agrees _ _ _ present
  simp only [Agrees, control] at agrees
  refine ⟨world.store id { transactionOf coordinator .active with
    stage := .phaseOne committing coordinator.writeNodes true }, ?_, ?_⟩
  · simp only [World.step, stands, transactionOf]
    rfl
  · refine refines.goOn label (some (.finish id committing)) present consistent ⟨rfl, rfl⟩
      ⟨rfl, rfl⟩ (fun other differs => Function.update_of_ne differs ..)
      (fun other _ => ⟨silent other, by simp [Move.operation]⟩)
      (.phaseOne rfl (fun rid tag call => absurd call (agrees.2 rid tag)) (World.store_self _ _ _))
      ?_
    simp [requested_append, program_append, whole, silent, Move.operation]

/-- A Coordinator at the head of a loop, and its transaction. -/
theorem of_silent (refines : Refines labels system moves world names)
    (present : system.coordinators id = some (process, coordinator))
    (silent : system.Silent id) :
    requested labels id = program moves id ∧
      match coordinator.control with
      | .phaseOne committing loop => world.transactions id =
          some (transactionOf coordinator (.phaseOne committing loop.remNodes loop.vote))
      | .phaseTwo committing vote loop => world.transactions id =
          some (transactionOf coordinator (.phaseTwo committing vote loop.remNodes))
      | .ready | .reading _ _ | .writing _ | .ended _ _ => True := by
  obtain ⟨waiting, follows, whole⟩ := refines.follows id process coordinator present
  cases follows with
  | ready control | ended control => rw [control]; exact ⟨by simpa using whole, trivial⟩
  | phaseOne control _ stands | phaseTwo control _ stands =>
      rw [control]
      exact ⟨by simpa using whole, stands⟩
  | readAsked _ call | readServed _ call | writeAsked _ call | writeServed _ call
  | phaseOneServed _ call | phaseTwoServed _ call => exact absurd call (silent _ _)

/-- The first round of a loop, or the end of it. -/
theorem turn (refines : Refines labels system moves world names)
    (permitted : DistinctIds system (.turn id))
    (stepped : system.step getNode (.turn id) = .ok system') :
    ∃ world', Stepped world (system.moveOf (.turn id)) world' ∧
      Refines (labels ++ [.turn id]) system' (moves ++ (system.moveOf (.turn id)).toList) world'
        names := by
  have consistent := refines.consistent.turn permitted stepped
  rw [System.step] at stepped
  split at stepped
  · exact absurd stepped (by simp)
  next process coordinator present =>
  have agrees := refines.consistent.agrees _ _ _ present
  have cached := refines.consistent.orderly.cached process
  have few := refines.consistent.orderly.few process
  -- A message of the first round is the only one under way, and is not handled yet.
  have unserved : ∀ (silent : system.Silent id) (message : Message) {nodes : Finset Nat},
      nodes ≠ ∅ → ∀ rid tag, (system.send id [message]).calls rid = some ⟨id, tag⟩ →
        (system.send id [message]).requests rid ≠ none ∧ nodes ≠ ∅ := by
    intro silent message nodes some' rid tag call
    obtain rfl := (underway_send silent message).2 _ _ call
    exact ⟨by simp [requests_send], some'⟩
  split at stepped
  · exact absurd stepped (by simp)
  next client coordinator' messages turned =>
  obtain rfl := Except.ok.inj stepped
  unfold Coordinator.turn at turned
  split at turned
  · next committing loop control =>
      simp only [Agrees, control] at agrees
      split at turned
      · exact absurd turned (by simp)
      next idle =>
      obtain ⟨silent, rest⟩ := agrees.2.head (not_not.1 idle)
      obtain ⟨whole, stands⟩ := refines.of_silent present silent
      simp only [control] at stands
      split at turned
      · next empty =>
          obtain ⟨rfl, rfl, rfl⟩ := by simpa using turned
          have move : system.moveOf (.turn id) = some (.phaseOne id false) := by
            simp [System.moveOf, present, control, empty]
          rw [move]
          refine ⟨world.store id (transactionOf coordinator (.phaseTwo committing
            (committing && loop.vote) (coordinator.writeNodes ∪ coordinator.readNodes))), ?_, ?_⟩
          · simp [Stepped, World.step, World.finishing, stands, transactionOf, empty, bind,
              Except.bind, pure, Except.pure, Transaction.nodes]
          · refine refines.goOn (.turn id) (some _) present consistent ⟨rfl, rfl⟩ ⟨rfl, rfl⟩
              (fun other differs => Function.update_of_ne differs ..)
              (fun other _ => ⟨rfl, by simp [Move.operation]⟩)
              (.phaseTwo rfl (fun rid tag call => absurd call (silent rid tag))
                (World.store_self _ _ _)) ?_
            simp [requested_append, program_append, whole, Label.operation, Move.operation]
      · next remains =>
          obtain ⟨rfl, nonempty, -⟩ := rest.resolve_left remains
          obtain ⟨client', sent, -⟩ := sendRound_start cached nonempty few
          rw [sent] at turned
          obtain ⟨rfl, rfl, rfl⟩ := by simpa using turned
          have move : system.moveOf (.turn id) = none := by
            simp only [System.moveOf, present, control, if_neg remains]
          rw [move, Option.toList_none, List.append_nil]
          refine ⟨world, rfl, refines.ask present consistent (fun _ _ => rfl)
            (.phaseOne rfl (unserved silent _ nonempty) stands) ?_⟩
          simp [requested_append, whole, Label.operation]
  · next committing vote loop control =>
      simp only [Agrees, control] at agrees
      split at turned
      · exact absurd turned (by simp)
      next idle =>
      obtain ⟨silent, rest⟩ := InRound.head agrees (not_not.1 idle)
      obtain ⟨whole, stands⟩ := refines.of_silent present silent
      simp only [control] at stands
      split at turned
      · next empty =>
          obtain ⟨rfl, rfl, rfl⟩ := by simpa using turned
          have move : system.moveOf (.turn id) = some (.phaseTwo id) := by
            simp [System.moveOf, present, control, empty]
          rw [move]
          refine ⟨world.store id (transactionOf coordinator (.ended committing vote)), ?_, ?_⟩
          · simp [Stepped, World.step, World.finishing, stands, transactionOf, empty, bind,
              Except.bind, pure, Except.pure]
          · refine refines.goOn (.turn id) (some _) present consistent ⟨rfl, rfl⟩ ⟨rfl, rfl⟩
              (fun other differs => Function.update_of_ne differs ..)
              (fun other _ => ⟨rfl, by simp [Move.operation]⟩)
              (.ended rfl (World.store_self _ _ _)) ?_
            simp [requested_append, program_append, whole, Label.operation, Move.operation]
      · next remains =>
          obtain ⟨rfl, nonempty, -⟩ := rest.resolve_left remains
          obtain ⟨client', sent, -⟩ := sendRound_start cached nonempty few
          rw [sent] at turned
          obtain ⟨rfl, rfl, rfl⟩ := by simpa using turned
          have move : system.moveOf (.turn id) = none := by
            simp only [System.moveOf, present, control, if_neg remains]
          rw [move, Option.toList_none, List.append_nil]
          refine ⟨world, rfl, refines.ask present consistent (fun _ _ => rfl)
            (.phaseTwo rfl (unserved silent _ nonempty) stands) ?_⟩
          simp [requested_append, whole, Label.operation]
  · exact absurd turned (by simp)

/-- A Coordinator whose request has been handled, and its transaction. -/
theorem of_served (refines : Refines labels system moves world names)
    (present : system.coordinators id = some (process, coordinator)) {tag : Option Nat}
    (underway : system.Underway id tag rid) (taken : system.requests rid = none) :
    requested labels id = program moves id ∧
      match coordinator.control with
      | .reading key node => world.transactions id =
          some (transactionOf coordinator (.reading (names rid) key node))
      | .writing node => world.transactions id =
          some { transactionOf coordinator .active with
            writeNodes := insert node coordinator.writeNodes }
      | .phaseOne committing loop => ∃ nodes vote,
          system.server.replies rid = some (.p1c nodes vote) ∧ world.transactions id =
            some (transactionOf coordinator
              (.phaseOne committing (loop.remNodes \ nodes) (loop.vote && vote)))
      | .phaseTwo committing vote loop => ∃ nodes,
          system.server.replies rid = some (.p2c nodes) ∧ world.transactions id =
            some (transactionOf coordinator (.phaseTwo committing vote (loop.remNodes \ nodes)))
      | .ready | .ended _ _ => True := by
  obtain ⟨waiting, follows, whole⟩ := refines.follows id process coordinator present
  cases follows with
  | ready control | ended control => rw [control]; exact ⟨by simpa using whole, trivial⟩
  | readAsked _ call asked =>
      rw [underway.2 _ _ call] at asked
      exact absurd taken asked
  | writeAsked _ call asked =>
      rw [underway.2 _ _ call, taken] at asked
      exact absurd asked (by simp)
  | phaseOne _ unserved | phaseTwo _ unserved => exact absurd taken (unserved _ _ underway.1).1
  | readServed control call _ stands =>
      rw [control, ← underway.2 _ _ call]
      exact ⟨by simpa using whole, stands⟩
  | writeServed control call _ stands =>
      rw [control]
      exact ⟨by simpa using whole, stands⟩
  | phaseOneServed control call _ replied stands =>
      rw [control, ← underway.2 _ _ call]
      exact ⟨by simpa using whole, _, _, replied, stands⟩
  | phaseTwoServed control call _ replied stands =>
      rw [control, ← underway.2 _ _ call]
      exact ⟨by simpa using whole, _, replied, stands⟩

/-- A Coordinator collects a reply. -/
theorem collect {tag : Option Nat} (refines : Refines labels system moves world names)
    (present : system.coordinators id = some (process, coordinator))
    (call : system.calls rid = some ⟨id, tag⟩)
    (consistent : Consistent
      ((system.setCoordinator id process client coordinator').collected rid))
    (follows : Follows ((system.setCoordinator id process client coordinator').collected rid)
      names world id coordinator' [])
    (whole : requested labels id = program moves id) :
    Refines (labels ++ [.receive id rid])
      ((system.setCoordinator id process client coordinator').collected rid) moves world
        names := by
  have refined := refines.store (.receive id rid) none world present consistent rfl
    (fun _ differs => undisturbed_setCoordinator.trans (undisturbed_collected call differs))
    ⟨rfl, rfl⟩ (fun other => curIds_setCoordinator system id process other client coordinator')
    (fun _ below none' => ⟨below, none'⟩) ⟨rfl, rfl⟩ ⟨rfl, rfl⟩ (fun _ _ => rfl)
    (fun _ _ => ⟨rfl, by simp⟩) follows
    (by simpa [requested_append, Label.operation] using whole)
  simpa using refined

/-- A reply is collected. -/
theorem receive (refines : Refines labels system moves world names)
    (stepped : system.step getNode (.receive id rid) = .ok system') :
    Refines (labels ++ [.receive id rid]) system' moves world names := by
  have consistent := refines.consistent.receive stepped
  rw [System.step] at stepped
  split at stepped
  swap
  · exact absurd stepped (by simp)
  next process coordinator reply present replied =>
  split at stepped
  swap
  · exact absurd stepped (by simp)
  next awaits =>
  split at stepped
  · exact absurd stepped (by simp)
  next client coordinator' received =>
  obtain rfl := Except.ok.inj stepped
  obtain ⟨tag, underway⟩ := refines.consistent.underway_of_awaits present awaits
  obtain ⟨taken, -⟩ := refines.consistent.orderly.replies rid (by simp [replied])
  have stored : (system.setCoordinator id process client coordinator').Underway id tag rid :=
    underway
  have silent := silent_collected stored
  obtain ⟨whole, stands⟩ := refines.of_served present underway taken
  refine refines.collect present underway.1 consistent ?_ whole
  unfold Coordinator.receive at received
  split at received
  · next key node value status control =>
      obtain ⟨rfl, rfl⟩ := by simpa using received
      simp only [control] at stands
      have collected : world.server.replies (names rid) = some (.read value status) := by
        rw [refines.server, replies_rename, replied]
      refine .ready rfl ?_
      simp [World.ready, stands, transactionOf, collected]
  · next node status control =>
      obtain ⟨rfl, rfl⟩ := by simpa using received
      simp only [control] at stands
      refine .ready rfl ?_
      simp [World.ready, stands, transactionOf]
  · next committing loop nodes vote control =>
      simp only [control] at stands
      split at received
      · exact absurd received (by simp)
      obtain ⟨rfl, rfl⟩ := by simpa using received
      obtain ⟨nodes', vote', replied', stands⟩ := stands
      obtain ⟨rfl, rfl⟩ := Reply.p1c.inj (Option.some.inj (replied.symm.trans replied'))
      exact .phaseOne rfl (fun rid' tag' call => absurd call (silent rid' tag')) stands
  · next committing vote loop nodes control =>
      simp only [control] at stands
      split at received
      · exact absurd received (by simp)
      obtain ⟨rfl, rfl⟩ := by simpa using received
      obtain ⟨nodes', replied', stands⟩ := stands
      obtain rfl := Reply.p2c.inj (Option.some.inj (replied.symm.trans replied'))
      exact .phaseTwo rfl (fun rid' tag' call => absurd call (silent rid' tag')) stands
  · exact absurd received (by simp)

/-- A Coordinator is created. -/
theorem start {process tid startTs : Nat} (refines : Refines labels system moves world names)
    (permitted : DistinctIds system (.start process tid startTs))
    (stepped : system.step getNode (.start process tid startTs) = .ok system') :
    ∃ world', world.step getNode (.start process tid startTs) = .ok world' ∧
      Refines (labels ++ [.start process tid startTs]) system'
        (moves ++ [.start process tid startTs]) world' names := by
  have consistent := refines.consistent.start permitted stepped
  obtain rfl := Except.ok.inj stepped
  have orderly := refines.consistent.orderly
  refine ⟨_, rfl, ?_⟩
  have fresh : system.coordinators system.created = none :=
    not_not.1 fun some => Nat.lt_irrefl _ (orderly.created _ some)
  have asked : ∀ id, requested (labels ++ [.start process tid startTs]) id =
      requested labels id := fun id => by simp [requested_append, Label.operation]
  have done : ∀ id, program (moves ++ [.start process tid startTs]) id = program moves id :=
    fun id => by simp [program_append, Move.operation]
  have undisturbed : ∀ id, Undisturbed system
      { system with
        processes := Function.update system.processes process
          { system.processes process with
            curId := (genTransactionID (system.processes process).curId).2 }
        coordinators := Function.update system.coordinators system.created
          (some (process, .new tid startTs))
        created := system.created + 1 } id 0 := fun id => .of_eq rfl rfl rfl
  refine
    { consistent := consistent
      server := refines.server
      begun := congrArg (· + 1) refines.begun
      curIds := fun other => ?_
      numbered := refines.numbered
      follows := fun id process' current here => ?_
      absent := fun id none' => ?_ }
  · by_cases same : other = process
    · subst same
      simp [refines.curIds]
    · simp [same, refines.curIds]
  · rw [asked, done]
    by_cases same : id = system.created
    · subst same
      obtain ⟨rfl, rfl⟩ : process = process' ∧ Coordinator.new tid startTs = current := by
        simpa using here
      refine ⟨[], .ready rfl ?_, by simpa using (refines.absent _ fresh).2⟩
      simp [World.ready, refines.begun, Transaction.new, transactionOf, Coordinator.new]
    · obtain ⟨waiting, stands, whole⟩ :=
        refines.follows id process' current (by simpa [same] using here)
      refine ⟨waiting, stands.frame (undisturbed id) (fun _ _ _ _ => rfl) ?_ fun _ _ same => same,
        whole⟩
      exact Function.update_of_ne (refines.begun ▸ same) ..
  · have differs : id ≠ system.created := by
      rintro rfl
      simp at none'
    rw [asked, done]
    obtain ⟨nobody, whole⟩ := refines.absent id (by simpa [differs] using none')
    exact ⟨(Function.update_of_ne (refines.begun ▸ differs) ..).trans nobody, whole⟩

/-! ## Handling a request -/

/-- A Coordinator whose request has not been handled, and its transaction. -/
theorem of_asked (refines : Refines labels system moves world names)
    (present : system.coordinators id = some (process, coordinator)) {tag : Option Nat}
    {request : Request} (underway : system.Underway id tag rid)
    (asked : system.requests rid = some request) :
    match coordinator.control with
    | .reading key _ => coordinator.pendWrites key = none ∧
        world.ready id = .ok (transactionOf coordinator .active) ∧
        requested labels id = program moves id ++ [.read key]
    | .writing _ => ∃ key value pendWrites, request = .write coordinator.tid key value ∧
        coordinator.pendWrites = Function.update pendWrites key (some value) ∧
        world.ready id = .ok { transactionOf coordinator .active with pendWrites := pendWrites } ∧
        requested labels id = program moves id ++ [.write key value]
    | .phaseOne committing loop => loop.remNodes ≠ ∅ ∧ world.transactions id =
          some (transactionOf coordinator (.phaseOne committing loop.remNodes loop.vote)) ∧
        requested labels id = program moves id
    | .phaseTwo committing vote loop => loop.remNodes ≠ ∅ ∧ world.transactions id =
          some (transactionOf coordinator (.phaseTwo committing vote loop.remNodes)) ∧
        requested labels id = program moves id
    | .ready | .ended _ _ => True := by
  obtain ⟨waiting, follows, whole⟩ := refines.follows id process coordinator present
  cases follows with
  | ready control | ended control => rw [control]; trivial
  | readAsked control call _ unwritten stands =>
      rw [control]
      exact ⟨unwritten, stands, whole⟩
  | writeAsked control call asked' written stands =>
      rw [underway.2 _ _ call] at asked'
      rw [control]
      exact ⟨_, _, _, Option.some.inj (asked.symm.trans asked'), written, stands, whole⟩
  | phaseOne control unserved stands | phaseTwo control unserved stands =>
      rw [control]
      exact ⟨(unserved _ _ underway.1).2, stands, by simpa using whole⟩
  | readServed _ call taken | writeServed _ call taken | phaseOneServed _ call taken
  | phaseTwoServed _ call taken =>
      rw [underway.2 _ _ call, asked] at taken
      exact absurd taken (by simp)

/-- The world handles a request as the system does, under the next number. -/
theorem exists_names (refines : Refines labels system moves world names) {request : Request}
    (asked : system.requests rid = some request) :
    ∃ names' : Equiv.Perm Nat, names' rid = world.sent + 1 ∧
      (∀ other ≤ system.sent, system.requests other = none → names' other = names other) ∧
      ∀ server' event unset,
        system.server.handle getNode rid event unset request = .ok server' →
        world.server.handle getNode (world.sent + 1) event unset request =
          .ok (server'.rename names') := by
  have orderly := refines.consistent.orderly
  have unused : system.server.Unused rid := by
    refine ⟨not_not.1 fun replied => ?_, fun event read made same => ?_⟩
    · exact absurd ((orderly.replies rid replied).1.symm.trans asked) (by simp)
    · exact absurd ((orderly.events event read made).1.symm.trans (same ▸ asked)) (by simp)
  have unused' : system.server.Unused (names.symm (world.sent + 1)) := by
    have above : ∀ other, system.requests other = none → other ≤ system.sent →
        other ≠ names.symm (world.sent + 1) := by
      rintro other none' below rfl
      have bound := refines.numbered _ below none'
      rw [Equiv.apply_symm_apply] at bound
      exact Nat.not_succ_le_self _ bound
    refine ⟨not_not.1 fun replied => ?_, fun event read made => ?_⟩
    · obtain ⟨none', below⟩ := orderly.replies _ replied
      exact above _ none' below rfl
    · obtain ⟨none', below⟩ := orderly.events event read made
      exact above _ none' below
  have next := unused'.rename names
  rw [Equiv.apply_symm_apply] at next
  refine ⟨names.trans (Equiv.swap (names rid) (world.sent + 1)), by simp,
    fun other below none' => ?_, fun server' event unset handled => ?_⟩
  · refine Equiv.swap_apply_of_ne_of_ne (fun same => ?_) fun same => ?_
    · obtain rfl := names.injective same
      exact absurd (none'.symm.trans asked) (by simp)
    · have := refines.numbered other below none'
      omega
  · have server : world.server =
        system.server.rename (names.trans (Equiv.swap (names rid) (world.sent + 1))) := by
      rw [← rename_rename, rename_swap (unused.rename names) next, refines.server]
    have renamed := handle_rename (names.trans (Equiv.swap (names rid) (world.sent + 1))) getNode
      system.server rid event unset request
    rw [handled, Equiv.trans_apply, Equiv.swap_apply_left] at renamed
    rw [server]
    exact renamed

/-- The request of a Coordinator is handled, and its transaction goes on. -/
theorem served {tag : Option Nat} {request : Request} {server' : SimpleTServer}
    {names' : Equiv.Perm Nat} {move : Move} {event : Nat} {unset : Bool}
    (refines : Refines labels system moves world names)
    (present : system.coordinators id = some (process, coordinator))
    (call : system.calls rid = some ⟨id, tag⟩)
    (consistent : Consistent (system.handled rid server'))
    (handled : Handled getNode system.server rid event unset request server')
    (handled' : Handled getNode world.server (world.sent + 1) event unset request
      (server'.rename names'))
    (next : names' rid = world.sent + 1)
    (agree : ∀ other ≤ system.sent, system.requests other = none → names' other = names other)
    (silent : label.operation = fun _ => none)
    (own : ∀ other, other ≠ id → move.operation other = none)
    (follows : Follows (system.handled rid server') names'
      (world.after (server'.rename names') id transaction [(id, request)]) id coordinator [])
    (whole : requested labels id = program (moves ++ [move]) id) :
    Refines (labels ++ [label]) (system.handled rid server') (moves ++ [move])
      (world.after (server'.rename names') id transaction [(id, request)]) names' := by
  have orderly := refines.consistent.orderly
  have more : (world.after (server'.rename names') id transaction [(id, request)]).sent =
      world.sent + 1 := by
    simp [World.after, World.sent]
  have silent' : ∀ other, label.operation other = none := fun other => congrFun silent other
  refine refines.change label (some move) present consistent ?_
    (fun other differs => ⟨request.tid + 1,
      undisturbed_handled call handled.touches differs (Nat.succ_ne_self _)⟩) rfl (fun _ => rfl) rfl
    ⟨rfl, rfl⟩ (fun other below none' => ?_) (fun other holder tag' differs call' none' => ?_)
    (fun other differs => Function.update_of_ne differs ..) handled'.touches.kept
    (fun other differs => ⟨silent' other, ?_⟩) follows ?_
  · funext other
    by_cases same : other = id
    · subst same
      simpa [System.handled] using present
    · simp [System.handled, same]
  · rw [more]
    by_cases same : other = rid
    · exact same ▸ next.le
    · have none'' : system.requests other = none := by
        simpa [System.handled, same] using none'
      rw [agree other below none'']
      exact (refines.numbered other below none'').trans (Nat.le_succ _)
  · exact agree other (orderly.calls _ _ _ call').1 none'
  · simpa using own other differs
  · simpa [requested_append, silent'] using whole

theorem serve_eq {event : Nat} {unset : Bool} {request : Request} {server' : SimpleTServer}
    (id : Nat)
    (handled : world.server.handle getNode (world.sent + 1) event unset request = .ok server') :
    world.serve getNode id event unset request =
      .ok { world with server := server', handled := world.handled ++ [(id, request)] } := by
  simp [World.serve, handled]

/-- The server handles a request. -/
theorem handle {event : Nat} {unset : Bool} (refines : Refines labels system moves world names)
    (stepped : system.step getNode (.handle rid event unset) = .ok system') :
    ∃ world' names', Stepped world (system.moveOf (.handle rid event unset)) world' ∧
      Refines (labels ++ [.handle rid event unset]) system'
        (moves ++ (system.moveOf (.handle rid event unset)).toList) world' names' := by
  have consistent := refines.consistent.handle stepped
  rw [System.step] at stepped
  split at stepped
  swap
  · exact absurd stepped (by simp)
  next request asked new =>
  split at stepped
  · exact absurd stepped (by simp)
  next server' ran =>
  obtain rfl := Except.ok.inj stepped
  have orderly := refines.consistent.orderly
  obtain ⟨⟨id, tag⟩, call⟩ := Option.ne_none_iff_exists'.1 (orderly.requests rid (by simp [asked]))
  obtain ⟨-, process, coordinator, present, -⟩ := orderly.calls _ _ _ call
  have agrees := refines.consistent.agrees _ _ _ present
  have places := agrees.requested call asked
  obtain ⟨names', next, agree, handles⟩ := refines.exists_names asked
  have handled := handled_of_handle ran
  have handled' := handled_of_handle (handles server' event unset ran)
  have taken : (system.handled rid server').requests rid = none := by simp [System.handled]
  have underway : ∀ {tag'}, system.Underway id tag' rid → system.Underway id tag rid :=
    fun underway => ⟨call, underway.2⟩
  cases request with
  | read tid startTs key =>
      obtain ⟨rfl, rfl, control, rfl⟩ := places
      simp only [Agrees, control] at agrees
      obtain ⟨-, -, rid', here, -⟩ := agrees
      obtain rfl := here.2 _ _ call
      have asking := refines.of_asked present here asked
      simp only [control] at asking
      obtain ⟨unwritten, stands, whole⟩ := asking
      have move : system.moveOf (.handle rid event unset) = some (.read id key event) := by
        simp [System.moveOf, call, asked]
      have empty : world.server.readEvents event = none := by
        rw [refines.server, readEvents_rename, new, Option.map_none]
      have serves := serve_eq id
        ((handle_unset false (by simp)).symm.trans (handles server' event unset ran))
      rw [move]
      refine ⟨world.after (server'.rename names') id
        (transactionOf coordinator (.reading (world.sent + 1) key 0)) [(id, _)], names', ?_,
        refines.served present call consistent handled handled' next agree rfl
          (fun other differs => if_neg (Ne.symm differs))
          (.readServed control call taken ?_) ?_⟩
      · simp [Stepped, World.step, stands, transactionOf, unwritten, empty, serves, bind,
          Except.bind, pure, Except.pure, World.store, World.after, World.sent, getNode]
      · rw [next]
        exact World.after_self
      · simp [program_append, whole, Move.operation]
  | write tid key value =>
      obtain ⟨rfl, control, rfl⟩ := places
      simp only [Agrees, control] at agrees
      obtain ⟨-, -, rid', here, -⟩ := agrees
      obtain rfl := here.2 _ _ call
      have asking := refines.of_asked present here asked
      simp only [control] at asking
      obtain ⟨key', value', pendWrites, same, written, stands, whole⟩ := asking
      obtain ⟨-, rfl, rfl⟩ := Request.write.inj same
      have move : system.moveOf (.handle rid event unset) = some (.write id key value) := by
        simp [System.moveOf, call, asked]
      have serves := serve_eq id ((handle_event 0 (by simp)).symm.trans
        ((handle_unset false (by simp)).symm.trans (handles server' event unset ran)))
      rw [move]
      refine ⟨world.after (server'.rename names') id { transactionOf coordinator .active with
          writeNodes := insert 0 coordinator.writeNodes } [(id, _)], names', ?_,
        refines.served present call consistent handled handled' next agree rfl
          (fun other differs => if_neg (Ne.symm differs))
          (.writeServed control call taken World.after_self) ?_⟩
      · simp [Stepped, World.step, stands, transactionOf, written, serves, bind,
          Except.bind, pure, Except.pure, World.store, World.after, getNode]
      · simp [program_append, whole, Move.operation]
  | p1c tid startTs commitTs readNodes writeNodes =>
      obtain ⟨same, -, committing, loop, control, -, -, -, here⟩ := places
      obtain ⟨rfl, rfl, rfl, rfl, rfl⟩ := Request.p1c.inj same
      have asking := refines.of_asked present here asked
      simp only [control] at asking
      obtain ⟨remain, stands, whole⟩ := asking
      obtain ⟨nodes, vote, replied, -⟩ := reply_of_p1c handled
      have move : system.moveOf (.handle rid event unset) = some (.phaseOne id unset) := by
        simp [System.moveOf, call, asked]
      have serves := serve_eq id
        ((handle_event 0 (by simp)).symm.trans (handles server' event unset ran))
      have replied' : (server'.rename names').replies (world.handled.length + 1) =
          some (.p1c nodes vote) := by
        rw [show world.handled.length + 1 = names' rid from next.symm, replies_rename, replied]
      rw [move]
      refine ⟨world.after (server'.rename names') id (transactionOf coordinator
          (.phaseOne committing (loop.remNodes \ nodes) (loop.vote && vote))) [(id, _)], names', ?_,
        refines.served present call consistent handled handled' next agree rfl (fun _ _ => rfl)
          (.phaseOneServed control call taken replied World.after_self) ?_⟩
      · simp [Stepped, World.step, World.finishing, stands, transactionOf, remain, serves, bind,
          Except.bind, pure, Except.pure, World.store, World.after, World.sent, replied']
      · simp [program_append, whole, Move.operation]
  | p2c tid vote =>
      obtain ⟨rfl, -, committing, loop, control, -, -, -, here⟩ := places
      have asking := refines.of_asked present here asked
      simp only [control] at asking
      obtain ⟨remain, stands, whole⟩ := asking
      obtain ⟨nodes, replied, -⟩ := reply_of_p2c handled
      have move : system.moveOf (.handle rid event unset) = some (.phaseTwo id) := by
        simp [System.moveOf, call, asked]
      have serves := serve_eq id ((handle_event 0 (by simp)).symm.trans
        ((handle_unset false (by simp)).symm.trans (handles server' event unset ran)))
      have replied' : (server'.rename names').replies (world.handled.length + 1) =
          some (.p2c nodes) := by
        rw [show world.handled.length + 1 = names' rid from next.symm, replies_rename, replied]
      rw [move]
      refine ⟨world.after (server'.rename names') id (transactionOf coordinator
          (.phaseTwo committing vote (loop.remNodes \ nodes))) [(id, _)], names', ?_,
        refines.served present call consistent handled handled' next agree rfl (fun _ _ => rfl)
          (.phaseTwoServed control call taken replied World.after_self) ?_⟩
      · simp [Stepped, World.step, World.finishing, stands, transactionOf, remain, serves, bind,
          Except.bind, pure, Except.pure, World.store, World.after, World.sent, replied']
      · simp [program_append, whole, Move.operation]

/-! ## Runs -/

/-- Every step of the system is a step of the world or none. -/
theorem step (refines : Refines labels system moves world names)
    (permitted : DistinctIds system label) (stepped : system.step getNode label = .ok system') :
    ∃ world' names', Stepped world (system.moveOf label) world' ∧
      Refines (labels ++ [label]) system' (moves ++ (system.moveOf label).toList) world'
        names' := by
  have silent : ∀ {label system'}, Refines (labels ++ [label]) system' moves world names →
      Refines (labels ++ [label]) system' (moves ++ (none : Option Move).toList) world names :=
    fun refined => by simpa using refined
  cases label with
  | start process tid startTs =>
      obtain ⟨world', stepped', refined⟩ := refines.start permitted stepped
      exact ⟨world', names, stepped', refined⟩
  | read id key =>
      obtain ⟨world', stepped', refined⟩ := refines.read stepped
      exact ⟨world', names, stepped', refined⟩
  | write id key value => exact ⟨world, names, rfl, silent (refines.write stepped)⟩
  | commit id =>
      have consistent := refines.consistent.step permitted stepped
      obtain ⟨⟨process, coordinator⟩, ready, stepped⟩ := exists_of_bind stepped
      obtain rfl := Except.ok.inj stepped
      obtain ⟨world', stepped', refined⟩ :=
        refines.finish (.commit id) ready consistent fun _ => rfl
      exact ⟨world', names, stepped', refined⟩
  | abort id =>
      have consistent := refines.consistent.step permitted stepped
      obtain ⟨⟨process, coordinator⟩, ready, stepped⟩ := exists_of_bind stepped
      obtain rfl := Except.ok.inj stepped
      obtain ⟨world', stepped', refined⟩ := refines.finish (.abort id) ready consistent fun _ => rfl
      exact ⟨world', names, stepped', refined⟩
  | turn id =>
      obtain ⟨world', stepped', refined⟩ := refines.turn permitted stepped
      exact ⟨world', names, stepped', refined⟩
  | receive id rid => exact ⟨world, names, rfl, silent (refines.receive stepped)⟩
  | handle rid event unset => exact refines.handle stepped

/-- Every run of the system is a run of the world, with steps that are allowed there. -/
theorem of_trace {allowed : System → Label → Prop} {permitted : World → Move → Prop}
    (ids : ∀ system label, allowed system label → DistinctIds system label)
    (carries : ∀ labels system moves world names label move,
      Refines labels system moves world names → allowed system label →
      system.moveOf label = some move → permitted world move)
    (trace : Trace (System.step getNode) allowed (.first .initial) labels system) :
    ∃ moves world, Trace (World.step getNode) permitted .first moves world ∧
      ∃ names, Refines labels system moves world names := by
  refine trace.simulated (fun labels system moves world =>
    ∃ names, Refines labels system moves world names) ⟨.refl Nat, .first⟩ ?_
  intro labels system label system' moves world related admitted stepped
  obtain ⟨names, refines⟩ := related
  obtain ⟨world', names', stepped', refined⟩ := refines.step (ids _ _ admitted) stepped
  refine ⟨(system.moveOf label).toList, world', ?_, names', refined⟩
  cases move : system.moveOf label with
  | none =>
      obtain rfl : world' = world := by simpa [move, Stepped] using stepped'
      exact .refl
  | some step =>
      rw [move] at stepped'
      exact Trace.tail .refl (carries _ _ _ _ _ _ _ refines admitted move) stepped'

end Refines

end Mvtx.Cluster
