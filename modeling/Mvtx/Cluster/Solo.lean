import Mvtx.Cluster.Owed
import Mvtx.Server.Lone

/-!
# A transaction that runs alone

All other transactions have ended, and one transaction makes its calls and then
`commit`.  On the side of the server it gets through if it has written every key
once and every key that it has asked the server for has a version and nobody has
been blocked where it locks; then later reads are answered with what it has
written.  What its client makes of the answers is the subject of `SoloClient`.
-/

namespace Mvtx.Cluster

open Lib Server Lock AVLTreeLockManager

/-! ## What a program does -/

/-- A call of a program; the event of a read gets some address. -/
inductive Access where
  | read (key event : Nat)
  | write (key : Nat) (value : String)
  deriving DecidableEq

/-- The step that a call is. -/
def Access.move (id : Nat) : Access → Move
  | .read key event => .read id key event
  | .write key value => .write id key value

/-- The address of the event of a read. -/
def Access.event : Access → Option Nat
  | .read _ event => some event
  | .write _ _ => none

/-- What a transaction has asked the server for and what it has written. -/
structure Progress where
  asked : Finset Nat
  writes : List (Nat × String)

namespace Progress

/-- A transaction that has just begun. -/
def start : Progress where
  asked := ∅
  writes := []

/-- One more call: a key that the transaction has written is not asked for. -/
def next (progress : Progress) : Access → Progress
  | .read key _ =>
      if lastWrite progress.writes key = none then
        { progress with asked := insert key progress.asked }
      else progress
  | .write key value => { progress with writes := progress.writes ++ [(key, value)] }

/-- What a read returns if the server has some versions. -/
def answer (version : Nat → Option String) (progress : Progress) :
    Access → List (Nat × Option String)
  | .read key _ => [(key, (lastWrite progress.writes key).or (version key))]
  | .write _ _ => []

/-- What the reads among some calls return. -/
def answers (version : Nat → Option String) : Progress → List Access → List (Nat × Option String)
  | _, [] => []
  | progress, access :: accesses =>
      progress.answer version access ++ answers version (progress.next access) accesses

/-- What has been done after some calls. -/
def after (progress : Progress) (accesses : List Access) : Progress :=
  accesses.foldl next progress

theorem asked_next (progress : Progress) (access : Access) :
    progress.asked ⊆ (progress.next access).asked := by
  cases access with
  | read key event =>
      rw [next]
      split
      · exact Finset.subset_insert ..
      · exact Finset.Subset.refl _
  | write key value => exact Finset.Subset.refl _

theorem asked_after (progress : Progress) (accesses : List Access) :
    progress.asked ⊆ (progress.after accesses).asked := by
  induction accesses generalizing progress with
  | nil => exact Finset.Subset.refl _
  | cons access accesses ih => exact (progress.asked_next access).trans (ih _)

/-- A key that has been asked for has been read. -/
theorem exists_read_of_asked {progress : Progress} {accesses : List Access} {key : Nat}
    (asked : key ∈ (progress.after accesses).asked) :
    key ∈ progress.asked ∨ ∃ event, .read key event ∈ accesses := by
  induction accesses generalizing progress with
  | nil => exact .inl asked
  | cons access accesses ih =>
      rcases ih asked with here | ⟨event, member⟩
      · cases access with
        | write other value => exact .inl here
        | read other event =>
            rw [next] at here
            split at here
            · rcases Finset.mem_insert.1 here with rfl | old
              · exact .inr ⟨event, List.mem_cons_self ..⟩
              · exact .inl old
            · exact .inl here
      · exact .inr ⟨event, List.mem_cons_of_mem _ member⟩

theorem insert_zero {none' : Prop} [Decidable none'] :
    insert 0 (if none' then ∅ else {0} : Finset Nat) = {0} := by
  split <;> rfl

/-- The transaction between two calls, with what its reads have returned. -/
def transaction (progress : Progress) (tid startTs : Nat)
    (returned : List (Nat × Option String)) : Transaction where
  tid := tid
  startTs := startTs
  readNodes := if progress.asked = ∅ then ∅ else {0}
  writeNodes := if progress.writes = [] then ∅ else {0}
  pendWrites := lastWrite progress.writes
  returned := returned
  stage := .active

/-- The transaction in `commit`. -/
def inStage (progress : Progress) (tid startTs : Nat) (returned : List (Nat × Option String))
    (stage : Stage) : Transaction :=
  { progress.transaction tid startTs returned with stage := stage }

end Progress

/-! ## Calls -/

/-- A transaction alone between two calls, on a server that was quiet before it began. -/
structure Solo (base : SimpleTServer) (world : World) (id tid startTs : Nat)
    (progress : Progress) (returned : List (Nat × Option String)) : Prop where
  serving : Serving base world.server world.sent tid startTs progress.asked progress.writes false
  ready : world.ready id = .ok (progress.transaction tid startTs returned)
  versions : ∀ key ∈ progress.asked, base.lastVersion startTs key ≠ none

namespace Solo

open Progress

variable {base : SimpleTServer} {world world' : World} {id tid startTs : Nat}
  {progress : Progress} {returned : List (Nat × Option String)}

/-- A transaction begins. -/
theorem start {bound : Nat} (process tid : Nat) (quiet : world.server.Quiet bound world.sent)
    (within : bound ≤ startTs) :
    ∃ world', world.step getNode (.start process tid startTs) = .ok world' ∧
      world'.server = world.server ∧
      Solo world.server world' world.begun tid startTs .start [] := by
  refine ⟨_, rfl, rfl, ?_⟩
  refine
    { serving := .refl quiet within
      ready := ?_
      versions := by simp [Progress.start] }
  simp [World.ready, Transaction.new, Progress.transaction, Progress.start]
  rfl

/-- A read of a key that the transaction has not written. -/
theorem ask (solo : Solo base world id tid startTs progress returned)
    (idle : base.lockManager.Idle startTs) (positive : 1 ≤ startTs) (bound : startTs ≤ uintMax)
    {key event : Nat} (unwritten : lastWrite progress.writes key = none)
    (fresh : world.server.readEvents event = none) :
    (∃ halt, world.step getNode (.read id key event) = .error halt) ∧
        base.lastVersion startTs key = none ∨
      ∃ world', world.step getNode (.read id key event) = .ok world' ∧
        Solo base world' id tid startTs { progress with asked := insert key progress.asked }
          (returned ++ [(key, base.lastVersion startTs key)]) ∧
        ∀ other, other ≠ event →
          world'.server.readEvents other = world.server.readEvents other := by
  have taken : world.step getNode (.read id key event) =
      (world.serve getNode id event false (.read tid startTs key)).map fun world =>
        world.store id
          { progress.transaction tid startTs returned with
            stage := .reading world.sent key (getNode key) } := by
    rw [World.step, solo.ready]
    simp only [bind, Except.bind, Progress.transaction, unwritten, fresh]
    cases world.serve getNode id event false (.read tid startTs key) <;> rfl
  rcases solo.serving.read idle positive bound key event false with
    ⟨lost, failed⟩ | ⟨value, server', known, served, replied, others, serving⟩
  · refine .inl ⟨⟨.fault .nullDereference, ?_⟩, lost⟩
    rw [taken, World.serve, show getNode = fun _ => 0 from rfl, failed]
    rfl
  · refine .inr ⟨_, by rw [taken, World.serve, show getNode = fun _ => 0 from rfl, served]; rfl,
      ?_, others⟩
    refine
      { serving := ?_
        ready := ?_
        versions := fun other member => ?_ }
    · simpa [World.store, World.sent] using serving
    · have answered : server'.replies (world.handled.length + 1) = some (.read value true) :=
        replied
      simp [World.ready, World.store, World.sent, Progress.transaction, answered, known,
        insert_zero]
    · rcases Finset.mem_insert.1 member with rfl | old
      · simp [known]
      · exact solo.versions other old

/-- A write. -/
theorem write (solo : Solo base world id tid startTs progress returned)
    (key : Nat) (value : String) :
    ∃ world', world.step getNode (.write id key value) = .ok world' ∧
      Solo base world' id tid startTs
        { progress with writes := progress.writes ++ [(key, value)] } returned ∧
      world'.server.readEvents = world.server.readEvents := by
  obtain ⟨server', served, others, serving⟩ :=
    solo.serving.write key 0 false value
  have taken : world.step getNode (.write id key value) =
      (world.serve getNode id 0 false (.write tid key value)).map fun world =>
        world.store id
          { progress.transaction tid startTs returned with
            pendWrites := Function.update (lastWrite progress.writes) key (some value)
            writeNodes := insert 0 (if progress.writes = [] then ∅ else {0}) } := by
    rw [World.step, solo.ready]
    simp only [bind, Except.bind, Progress.transaction]
    cases world.serve getNode id 0 false (.write tid key value) <;> rfl
  refine ⟨_, by rw [taken, World.serve, show getNode = fun _ => 0 from rfl, served]; rfl,
    ?_, others⟩
  refine
    { serving := ?_
      ready := ?_
      versions := solo.versions }
  · simpa [World.store, World.sent] using serving
  · simp [World.ready, World.store, Progress.transaction, lastWrite_append, insert_zero]

/-- A call fails if it asks for a key without a version, and goes on otherwise. -/
theorem access (solo : Solo base world id tid startTs progress returned)
    (idle : base.lockManager.Idle startTs) (positive : 1 ≤ startTs) (bound : startTs ≤ uintMax)
    (access : Access)
    (fresh : ∀ event, access.event = some event → world.server.readEvents event = none) :
    (∃ halt, world.step getNode (access.move id) = .error halt) ∧
        (∃ key ∈ (progress.next access).asked, base.lastVersion startTs key = none) ∨
      ∃ world', world.step getNode (access.move id) = .ok world' ∧
        Solo base world' id tid startTs (progress.next access)
          (returned ++ progress.answer (base.lastVersion startTs) access) ∧
        ∀ other, access.event ≠ some other →
          world'.server.readEvents other = world.server.readEvents other := by
  cases access with
  | write key value =>
      obtain ⟨world', stepped, solo', others⟩ := solo.write key value
      refine .inr ⟨world', stepped, ?_, fun other _ => by rw [others]⟩
      simpa [Progress.next, Progress.answer] using solo'
  | read key event =>
      cases written : lastWrite progress.writes key with
      | none =>
          simp only [Progress.next, Progress.answer, written, if_true, Option.none_or]
          rcases solo.ask idle positive bound written (fresh event rfl) with
            ⟨failed, lost⟩ | ⟨world', stepped, solo', others⟩
          · exact .inl ⟨failed, key, Finset.mem_insert_self .., lost⟩
          · refine .inr ⟨world', stepped, solo', fun other differs => others other ?_⟩
            rintro rfl
            exact differs rfl
      | some value =>
          -- The value is among the pending writes of the Coordinator.
          refine .inr ⟨world.store id (progress.transaction tid startTs
            (returned ++ [(key, some value)])), ?_, ?_, fun _ _ => rfl⟩
          · rw [Access.move, World.step, solo.ready]
            simp only [bind, Except.bind, Progress.transaction, written]
            rfl
          · simp only [Progress.next, Progress.answer, written, Option.some_or, reduceCtorEq,
              if_false]
            refine { serving := solo.serving, ready := ?_, versions := solo.versions }
            simp [World.ready, World.store, Progress.transaction]

/-- Each read event gets an address at which there is none. -/
def Fresh (server : SimpleTServer) (accesses : List Access) : Prop :=
  (accesses.filterMap Access.event).Nodup ∧
    ∀ event ∈ accesses.filterMap Access.event, server.readEvents event = none

theorem Fresh.head {server : SimpleTServer} {access : Access} {accesses : List Access}
    (fresh : Fresh server (access :: accesses)) :
    ∀ event, access.event = some event → server.readEvents event = none :=
  fun event address => fresh.2 event
    (by rw [List.filterMap_cons_some address]; exact List.mem_cons_self ..)

theorem Fresh.tail {server server' : SimpleTServer} {access : Access} {accesses : List Access}
    (fresh : Fresh server (access :: accesses))
    (others : ∀ other, access.event ≠ some other →
      server'.readEvents other = server.readEvents other) : Fresh server' accesses := by
  obtain ⟨distinct, new⟩ := fresh
  cases address : access.event with
  | none =>
      rw [List.filterMap_cons_none address] at distinct new
      refine ⟨distinct, fun event member => ?_⟩
      rw [others event (by simp [address]), new event member]
  | some event =>
      rw [List.filterMap_cons_some address] at distinct new
      obtain ⟨absent, distinct⟩ := List.nodup_cons.1 distinct
      refine ⟨distinct, fun other member => ?_⟩
      rw [others other, new other (List.mem_cons_of_mem _ member)]
      rw [address]
      rintro same
      obtain rfl := Option.some.inj same
      exact absent member

/-- A call that has returned. -/
theorem of_step (solo : Solo base world id tid startTs progress returned)
    (idle : base.lockManager.Idle startTs) (positive : 1 ≤ startTs) (bound : startTs ≤ uintMax)
    {access : Access} {accesses : List Access} (fresh : Fresh world.server (access :: accesses))
    (stepped : world.step getNode (access.move id) = .ok world') :
    Solo base world' id tid startTs (progress.next access)
        (returned ++ progress.answer (base.lastVersion startTs) access) ∧
      Fresh world'.server accesses := by
  obtain ⟨⟨halt, failed⟩, -⟩ | ⟨middle, stepped', solo', others⟩ :=
    solo.access idle positive bound access fresh.head
  · exact absurd (stepped.symm.trans failed) (by simp)
  · obtain rfl := Except.ok.inj (stepped.symm.trans stepped')
    exact ⟨solo', fresh.tail others⟩

/-- The calls of a program fail if they ask for a key without a version, and run otherwise. -/
theorem accesses (solo : Solo base world id tid startTs progress returned)
    (idle : base.lockManager.Idle startTs) (positive : 1 ≤ startTs) (bound : startTs ≤ uintMax)
    (accesses : List Access) (fresh : Fresh world.server accesses) :
    (∃ halt, run (World.step getNode) world (accesses.map (Access.move id)) = .error halt) ∧
        (∃ key ∈ (progress.after accesses).asked, base.lastVersion startTs key = none) ∨
      ∃ world', run (World.step getNode) world (accesses.map (Access.move id)) = .ok world' ∧
        Solo base world' id tid startTs (progress.after accesses)
          (returned ++ progress.answers (base.lastVersion startTs) accesses) := by
  induction accesses generalizing world progress returned with
  | nil => exact .inr ⟨world, rfl, by simpa [answers, Progress.after] using solo⟩
  | cons access accesses ih =>
      rcases solo.access idle positive bound access fresh.head with
        ⟨⟨halt, failed⟩, key, asked, lost⟩ | ⟨world₁, stepped, solo₁, others⟩
      · refine .inl ⟨⟨halt, by rw [List.map_cons, run, failed]⟩, key, ?_, lost⟩
        exact asked_after _ accesses asked
      · rw [List.map_cons, run, stepped]
        rcases ih solo₁ (fresh.tail others) with failed | ⟨world', ran, solo'⟩
        · exact .inl failed
        · exact .inr ⟨world', ran, by
            simpa [answers, Progress.after, List.append_assoc] using solo'⟩

end Solo

/-! ## The end -/

/-- The steps that `commit` takes. -/
def Move.Commits (id : Nat) : Move → Prop
  | .finish other committing => other = id ∧ committing = true
  | .phaseOne other _ | .phaseTwo other => other = id
  | .start .. | .read .. | .write .. => False

/-- The vote of the server, and what it has done if the vote is for the transaction. -/
structure Voted (base : SimpleTServer) (world : World) (tid startTs : Nat) (progress : Progress)
    (vote : Bool) : Prop where
  votes : vote = true ↔ (progress.writes.map (·.1)).Nodup
  serving : (progress.writes.map (·.1)).Nodup →
    Serving base world.server world.sent tid startTs progress.asked progress.writes true

/-- Nobody is blocked where a transaction alone takes read locks. -/
def Progress.Unblocked (progress : Progress) (base : SimpleTServer) (startTs : Nat) : Prop :=
  ∀ key ∈ progress.asked, ∀ ts, base.lockManager.Reaches startTs key ts →
    base.lockManager.eventsAt key ts = ∅

/-- The transaction has been committed. -/
structure Committed (base : SimpleTServer) (world : World) (startTs : Nat) (progress : Progress) :
    Prop where
  once : (progress.writes.map (·.1)).Nodup
  unblocked : progress.Unblocked base startTs
  quiet : progress.writes ≠ [] → world.server.Quiet (startTs + 1) world.sent
  written : ∀ key ∈ progress.writes.map (·.1),
    world.server.lockManager.statusAt key startTs = some .freezeWriteLock ∧
      world.server.get key startTs = lastWrite progress.writes key

/-- How far a transaction alone has got with `commit`. -/
inductive Closing (base : SimpleTServer) (world : World) (id tid startTs : Nat)
    (progress : Progress) (returned : List (Nat × Option String)) : Prop where
  | called (solo : Solo base world id tid startTs progress returned)
  | unlisted
      (present : world.transactions id =
        some (progress.inStage tid startTs returned (.phaseOne true {0} true)))
      (some' : progress.writes ≠ [])
      (serving : Serving base world.server world.sent tid startTs progress.asked progress.writes
        false)
  | listed
      {vote : Bool}
      (present : world.transactions id =
        some (progress.inStage tid startTs returned (.phaseOne true ∅ vote)))
      (voted : Voted base world tid startTs progress vote)
  | announcing
      {vote : Bool}
      (present : world.transactions id =
        some (progress.inStage tid startTs returned (.phaseTwo true vote
          (progress.transaction tid startTs returned).nodes)))
      (voted : Voted base world tid startTs progress vote)
  | announced
      {vote : Bool}
      {remNodes : Finset Nat}
      (present : world.transactions id =
        some (progress.inStage tid startTs returned (.phaseTwo true vote remNodes)))
      (committed : vote = true → remNodes = ∅ ∧ Committed base world startTs progress)
  | ended
      {vote : Bool}
      (present : world.transactions id =
        some (progress.inStage tid startTs returned (.ended true vote)))
      (committed : vote = true → Committed base world startTs progress)

section Closing

variable {base : SimpleTServer} {world world' : World} {id tid startTs : Nat}
  {progress : Progress} {returned : List (Nat × Option String)} {vote unset : Bool} {move : Move}

theorem nodes_eq (progress : Progress) (tid startTs : Nat)
    (returned : List (Nat × Option String)) :
    (progress.transaction tid startTs returned).nodes =
      if progress.asked = ∅ ∧ progress.writes = [] then ∅ else {0} := by
  by_cases unasked : progress.asked = ∅ <;> by_cases unwritten : progress.writes = [] <;>
    simp [Transaction.nodes, Progress.transaction, unasked, unwritten]

/-- A transaction between two calls is not in `commit`. -/
theorem Solo.stage {transaction : Transaction}
    (solo : Solo base world id tid startTs progress returned)
    (there : world.transactions id = some transaction) :
    transaction.stage = .active ∨ ∃ rid key node, transaction.stage = .reading rid key node := by
  obtain ⟨active, current, proceeds, collected⟩ := proceeds_ready solo.ready
  obtain rfl := Option.some.inj (there.symm.trans proceeds.present)
  rcases collected with rfl | ⟨rid, key, node, _, _, reading, -⟩
  · exact .inl active
  · exact .inr ⟨rid, key, node, reading⟩

/-- `commit` is called. -/
theorem Solo.finish (solo : Solo base world id tid startTs progress returned) :
    world.step getNode (.finish id true) =
      .ok (world.store id (progress.inStage tid startTs returned
        (.phaseOne true (progress.transaction tid startTs returned).writeNodes true))) := by
  rw [World.step, solo.ready]
  rfl

theorem Solo.reach_finish (solo : Solo base world id tid startTs progress returned) :
    Reach (World.step getNode) (fun _ move => Move.Commits id move) world
      (world.store id (progress.inStage tid startTs returned
        (.phaseOne true (progress.transaction tid startTs returned).writeNodes true))) :=
  .tail .refl (show Move.Commits id (.finish id true) from ⟨rfl, rfl⟩) solo.finish

theorem Solo.finish_of_nil (solo : Solo base world id tid startTs progress returned)
    (none' : progress.writes = []) :
    let world' := world.store id (progress.inStage tid startTs returned
      (.phaseOne true (progress.transaction tid startTs returned).writeNodes true))
    world'.transactions id =
        some (progress.inStage tid startTs returned (.phaseOne true ∅ true)) ∧
      Voted base world' tid startTs progress true := by
  have serving := solo.serving
  rw [none'] at serving
  refine ⟨?_, { votes := by simp [none'], serving := fun _ => ?_ }⟩
  · simp [World.store, Progress.transaction, none']
  · rw [none']
    exact serving.prepared_of_nil

theorem finish_of_ne_nil (some' : progress.writes ≠ []) :
    (world.store id (progress.inStage tid startTs returned
      (.phaseOne true (progress.transaction tid startTs returned).writeNodes true))).transactions
        id = some (progress.inStage tid startTs returned (.phaseOne true {0} true)) := by
  simp [World.store, Progress.transaction, some']

/-- A round of the loop for `TP1C`, once its request has been handled. -/
theorem phaseOne_of_handle {transaction : Transaction} {committing vote' : Bool}
    {remNodes nodes : Finset Nat} {server' : SimpleTServer}
    (present : world.transactions id = some transaction)
    (stage : transaction.stage = .phaseOne committing remNodes vote) (remain : remNodes ≠ ∅)
    (served : world.server.handle getNode (world.sent + 1) 0 unset
      (.p1c transaction.tid transaction.startTs transaction.startTs transaction.readNodes
        transaction.writeNodes) = .ok server')
    (replied : server'.replies (world.sent + 1) = some (.p1c nodes vote')) :
    world.step getNode (.phaseOne id unset) =
      .ok (world.after server' id
        { transaction with stage := .phaseOne committing (remNodes \ nodes) (vote && vote') }
        [(id, .p1c transaction.tid transaction.startTs transaction.startTs
          transaction.readNodes transaction.writeNodes)]) := by
  have sent : server'.replies (world.handled.length + 1) = _ := replied
  rw [World.step, World.finishing, present]
  simp only [bind, Except.bind, stage, if_neg remain, World.serve, served]
  simp [World.sent, sent, pure, Except.pure, World.store, World.after]

/-- A round of the loop for `TP2C`, if the server fails. -/
theorem phaseTwo_of_fault {transaction : Transaction} {committing : Bool} {remNodes : Finset Nat}
    {fault : Fault} (present : world.transactions id = some transaction)
    (stage : transaction.stage = .phaseTwo committing vote remNodes) (remain : remNodes ≠ ∅)
    (failed : world.server.handle getNode (world.sent + 1) 0 false
      (.p2c transaction.tid vote) = .error fault) :
    world.step getNode (.phaseTwo id) = .error (.fault fault) := by
  rw [World.step, World.finishing, present]
  simp only [bind, Except.bind, stage, if_neg remain, World.serve, failed]

/-- A round of the loop for `TP2C`, once its request has been handled. -/
theorem phaseTwo_of_handle {transaction : Transaction} {committing : Bool}
    {remNodes nodes : Finset Nat} {server' : SimpleTServer}
    (present : world.transactions id = some transaction)
    (stage : transaction.stage = .phaseTwo committing vote remNodes) (remain : remNodes ≠ ∅)
    (served : world.server.handle getNode (world.sent + 1) 0 false
      (.p2c transaction.tid vote) = .ok server')
    (replied : server'.replies (world.sent + 1) = some (.p2c nodes)) :
    world.step getNode (.phaseTwo id) =
      .ok (world.after server' id
        { transaction with stage := .phaseTwo committing vote (remNodes \ nodes) }
        [(id, .p2c transaction.tid vote)]) := by
  have sent : server'.replies (world.handled.length + 1) = _ := replied
  rw [World.step, World.finishing, present]
  simp only [bind, Except.bind, stage, if_neg remain, World.serve, served]
  simp [World.sent, sent, pure, Except.pure, World.store, World.after]

/-- The round of the loop for `TP1C`. -/
theorem phaseOne_send (unset : Bool)
    (present : world.transactions id =
      some (progress.inStage tid startTs returned (.phaseOne true {0} true)))
    (serving : Serving base world.server world.sent tid startTs progress.asked progress.writes
      false)
    (idle : base.lockManager.Idle startTs) (bound : startTs < uintMax)
    (some' : progress.writes ≠ []) :
    ∃ world' vote, world.step getNode (.phaseOne id unset) = .ok world' ∧
      world'.transactions id =
        some (progress.inStage tid startTs returned (.phaseOne true ∅ vote)) ∧
      Voted base world' tid startTs progress vote := by
  obtain ⟨server', vote, served, replied, votes, serving'⟩ :=
    serving.p1c idle bound some' 0 unset
      (progress.transaction tid startTs returned).readNodes
      (progress.transaction tid startTs returned).writeNodes
  refine ⟨_, vote, phaseOne_of_handle present rfl (Finset.singleton_ne_empty 0) served replied,
    ?_, votes, fun once => ?_⟩
  · rw [World.after_self, Finset.sdiff_eq_empty_iff_subset.2, Bool.true_and]
    · rfl
    · exact Finset.subset_union_left.trans Finset.subset_union_left
  · simpa [World.after, World.sent] using serving' once

/-- The end of the loop for `TP1C`. -/
theorem phaseOne_exit
    (present : world.transactions id =
      some (progress.inStage tid startTs returned (.phaseOne true ∅ vote))) :
    world.step getNode (.phaseOne id unset) =
      .ok (world.store id (progress.inStage tid startTs returned
        (.phaseTwo true vote (progress.transaction tid startTs returned).nodes))) := by
  rw [World.step, World.finishing, present]
  rfl

/-- The end of the loop for `TP2C`. -/
theorem phaseTwo_exit
    (present : world.transactions id =
      some (progress.inStage tid startTs returned (.phaseTwo true vote ∅))) :
    world.step getNode (.phaseTwo id) =
      .ok (world.store id (progress.inStage tid startTs returned (.ended true vote))) := by
  rw [World.step, World.finishing, present]
  rfl

/-- The round of the loop for `TP2C`, if the vote is for the transaction. -/
theorem phaseTwo_send
    (present : world.transactions id = some (progress.inStage tid startTs returned
      (.phaseTwo true true (progress.transaction tid startTs returned).nodes)))
    (serving : Serving base world.server world.sent tid startTs progress.asked progress.writes
      true)
    (once : (progress.writes.map (·.1)).Nodup)
    (idle : base.lockManager.Idle startTs) (positive : 1 ≤ startTs) (bound : startTs < uintMax)
    (some' : progress.asked ≠ ∅ ∨ progress.writes ≠ []) :
    ¬ progress.Unblocked base startTs ∧
        (∃ halt, world.step getNode (.phaseTwo id) = .error halt) ∨
      progress.Unblocked base startTs ∧
        ∃ world', world.step getNode (.phaseTwo id) = .ok world' ∧
          world'.transactions id =
            some (progress.inStage tid startTs returned (.phaseTwo true true ∅)) ∧
          Committed base world' startTs progress := by
  have nodes : (progress.transaction tid startTs returned).nodes = {0} := by
    rw [nodes_eq, if_neg]
    exact fun nothing => some'.elim (absurd nothing.1) (absurd nothing.2)
  rw [nodes] at present
  rcases serving.p2c idle positive bound some' 0 false with
    ⟨⟨key, asked, ts, reaches, registered⟩, fault, failed⟩ |
      ⟨unblocked, server', served, replied, quiet, written⟩
  · refine .inl ⟨fun unblocked => registered (unblocked key asked ts reaches), _,
      phaseTwo_of_fault present rfl (Finset.singleton_ne_empty 0) failed⟩
  · refine .inr ⟨unblocked, _,
      phaseTwo_of_handle present rfl (Finset.singleton_ne_empty 0) served replied, ?_, ?_⟩
    · rw [World.after_self, Finset.sdiff_self]
      rfl
    · refine { once := once, unblocked := unblocked, quiet := fun _ => ?_, written := written }
      simpa [World.after, World.sent] using quiet

theorem Closing.phaseOne (closing : Closing base world id tid startTs progress returned)
    (idle : base.lockManager.Idle startTs) (bound : startTs < uintMax)
    (stepped : world.step getNode (.phaseOne id unset) = .ok world') :
    Closing base world' id tid startTs progress returned := by
  obtain ⟨transaction, committing, remNodes, vote', there, stage, -⟩ := phaseOne_cases stepped
  cases closing with
  | called solo =>
      rcases solo.stage there with active | ⟨_, _, _, reading⟩
      · simp [active] at stage
      · simp [reading] at stage
  | unlisted present some' serving =>
      obtain ⟨world₁, vote, stepped', present', voted⟩ :=
        phaseOne_send unset present serving idle bound some'
      obtain rfl := Except.ok.inj (stepped.symm.trans stepped')
      exact .listed present' voted
  | listed present voted =>
      obtain rfl := Except.ok.inj (stepped.symm.trans (phaseOne_exit present))
      exact .announcing (World.store_self ..) ⟨voted.votes, voted.serving⟩
  | announcing present | announced present | ended present =>
      obtain rfl := Option.some.inj (there.symm.trans present)
      simp [Progress.inStage] at stage

theorem Closing.phaseTwo (closing : Closing base world id tid startTs progress returned)
    (idle : base.lockManager.Idle startTs) (positive : 1 ≤ startTs) (bound : startTs < uintMax)
    (stepped : world.step getNode (.phaseTwo id) = .ok world') :
    Closing base world' id tid startTs progress returned := by
  obtain ⟨transaction, committing, vote', remNodes', there, stage, cases⟩ :=
    phaseTwo_cases stepped
  cases closing with
  | called solo =>
      rcases solo.stage there with active | ⟨_, _, _, reading⟩
      · simp [active] at stage
      · simp [reading] at stage
  | unlisted present | listed present | ended present =>
      obtain rfl := Option.some.inj (there.symm.trans present)
      simp [Progress.inStage] at stage
  | @announcing vote present voted =>
      obtain rfl := Option.some.inj (there.symm.trans present)
      obtain ⟨rfl, rfl, rfl⟩ : true = committing ∧ vote = vote' ∧
          (progress.transaction tid startTs returned).nodes = remNodes' := by
        simpa [Progress.inStage] using stage
      rcases cases with ⟨none', rfl⟩ | ⟨server', nodes, remain, -, -, rfl⟩
      · refine .ended (World.store_self ..) fun yes => ?_
        obtain ⟨unasked, unwritten⟩ : progress.asked = ∅ ∧ progress.writes = [] := by
          rw [nodes_eq] at none'
          by_contra some'
          simp [some'] at none'
        exact
          { once := by simp [unwritten]
            unblocked := by simp [Progress.Unblocked, unasked]
            quiet := fun some' => absurd unwritten some'
            written := by simp [unwritten] }
      · cases vote with
        | false => exact .announced World.after_self (by simp)
        | true =>
            have once := voted.votes.1 rfl
            have some' : progress.asked ≠ ∅ ∨ progress.writes ≠ [] := by
              rw [nodes_eq] at remain
              by_contra nothing
              simp only [not_or, not_not] at nothing
              simp [nothing] at remain
            rcases phaseTwo_send present (voted.serving once) once idle positive bound some' with
              ⟨-, halt, failed⟩ | ⟨-, world₁, stepped', present', committed⟩
            · exact absurd (stepped.symm.trans failed) (by simp)
            · rw [Except.ok.inj (stepped.symm.trans stepped')]
              exact .announced present' fun _ => ⟨rfl, committed⟩
  | @announced vote remNodes present committed =>
      obtain rfl := Option.some.inj (there.symm.trans present)
      obtain ⟨rfl, rfl, rfl⟩ : true = committing ∧ vote = vote' ∧ remNodes = remNodes' := by
        simpa [Progress.inStage] using stage
      rcases cases with ⟨-, rfl⟩ | ⟨server', nodes, remain, -, -, rfl⟩
      · refine .ended (World.store_self ..) fun yes => ?_
        obtain ⟨-, once, unblocked, quiet, written⟩ := committed yes
        exact ⟨once, unblocked, quiet, written⟩
      · exact .announced World.after_self fun yes => absurd (committed yes).1 remain

/-- A step of `commit` leads on. -/
theorem Closing.step (closing : Closing base world id tid startTs progress returned)
    (idle : base.lockManager.Idle startTs) (positive : 1 ≤ startTs) (bound : startTs < uintMax)
    (permitted : move.Commits id) (stepped : world.step getNode move = .ok world') :
    Closing base world' id tid startTs progress returned := by
  cases move with
  | start | read | write => exact permitted.elim
  | phaseOne other unset =>
      obtain rfl : other = id := permitted
      exact closing.phaseOne idle bound stepped
  | phaseTwo other =>
      obtain rfl : other = id := permitted
      exact closing.phaseTwo idle positive bound stepped
  | finish other committing =>
      obtain ⟨rfl, rfl⟩ := permitted
      obtain ⟨transaction, found, -⟩ := finish_cases stepped
      cases closing with
      | called solo =>
          obtain rfl := Except.ok.inj (stepped.symm.trans solo.finish)
          by_cases none' : progress.writes = []
          · exact .listed (solo.finish_of_nil none').1 (solo.finish_of_nil none').2
          · exact .unlisted (finish_of_ne_nil none') none' solo.serving
      | unlisted present | listed present | announcing present | announced present
      | ended present =>
          simp [World.ready, present, Progress.inStage] at found

theorem Solo.closing {ended : World}
    (solo : Solo base world id tid startTs progress returned)
    (idle : base.lockManager.Idle startTs) (positive : 1 ≤ startTs) (bound : startTs < uintMax)
    (closed : Reach (World.step getNode) (fun _ move => Move.Commits id move) world ended) :
    Closing base ended id tid startTs progress returned := by
  induction closed with
  | refl => exact .called solo
  | tail earlier permitted stepped ih => exact ih.step idle positive bound permitted stepped

/-- From the vote on, the transaction gets through if nobody is blocked. -/
theorem exists_ended_of_voted
    (present : world.transactions id =
      some (progress.inStage tid startTs returned (.phaseOne true ∅ true)))
    (voted : Voted base world tid startTs progress true)
    (unblocked : progress.Unblocked base startTs)
    (idle : base.lockManager.Idle startTs) (positive : 1 ≤ startTs) (bound : startTs < uintMax) :
    ∃ world', Reach (World.step getNode) (fun _ move => Move.Commits id move) world world' ∧
      world'.transactions id = some (progress.inStage tid startTs returned (.ended true true)) ∧
      Committed base world' startTs progress := by
  have once := voted.votes.1 rfl
  have listed : Reach (World.step getNode) (fun _ move => Move.Commits id move) world _ :=
    .tail .refl (show Move.Commits id (.phaseOne id false) from rfl) (phaseOne_exit present)
  have there := World.store_self world id (progress.inStage tid startTs returned
    (.phaseTwo true true (progress.transaction tid startTs returned).nodes))
  by_cases nothing : progress.asked = ∅ ∧ progress.writes = []
  · rw [nodes_eq, if_pos nothing] at listed there
    refine ⟨_, listed.tail (show Move.Commits id (.phaseTwo id) from rfl) (phaseTwo_exit there),
      World.store_self .., ?_⟩
    exact
      { once := once
        unblocked := unblocked
        quiet := fun some' => absurd nothing.2 some'
        written := by simp [nothing.2] }
  · have some' : progress.asked ≠ ∅ ∨ progress.writes ≠ [] := by
      rwa [not_and_or] at nothing
    rcases phaseTwo_send there (voted.serving once) once idle positive bound some' with
      ⟨blocked, -⟩ | ⟨-, world₂, stepped, announced, committed⟩
    · exact absurd unblocked blocked
    · refine ⟨_, (listed.tail (show Move.Commits id (.phaseTwo id) from rfl) stepped).tail
        (show Move.Commits id (.phaseTwo id) from rfl) (phaseTwo_exit announced),
        World.store_self .., ?_⟩
      exact ⟨committed.once, committed.unblocked, committed.quiet, committed.written⟩

end Closing

/-! ## Commits -/

/-- A read of a key, with the address that its event gets. -/
def readOf (read : Nat × Nat) : Access :=
  .read read.1 read.2

/--
Later transactions read the last of some writes of each key, by some step
function and some way to collect the reply to the last read.
-/
def ReadsBack (step : World → Move → Except Halt World)
    (collect : World → Nat → Except Halt Transaction) (world : World) (startTs : Nat)
    (writes : List (Nat × String)) : Prop :=
  ∀ (process tid startTs' : Nat) (reads : List (Nat × Nat)), startTs < startTs' →
    startTs' ≤ uintMax → Solo.Fresh world.server (reads.map readOf) →
    (∀ read ∈ reads, read.1 ∈ writes.map (·.1)) →
    ∃ world' transaction,
      run step world (.start process tid startTs' ::
        (reads.map readOf).map (Access.move world.begun)) = .ok world' ∧
      collect world' world.begun = .ok transaction ∧
      transaction.returned = reads.map fun read => (read.1, lastWrite writes read.1)

/--
A transaction begins, makes its calls and commits, with nobody else taking a
step, and `commit` returns true.
-/
def CommitsAlone (step : World → Move → Except Halt World) (world : World)
    (process tid startTs : Nat) (accesses : List Access) (ended : World) : Prop :=
  ∃ called transaction,
    run step world (.start process tid startTs :: accesses.map (Access.move world.begun)) =
        .ok called ∧
      Reach step (fun _ move => Move.Commits world.begun move) called ended ∧
      ended.transactions world.begun = some transaction ∧ transaction.stage = .ended true true

/--
Every key is written once, every key that is asked for has a version, and nobody
is blocked where it is read locked.
-/
structure Progress.Clear (progress : Progress) (base : SimpleTServer) (startTs : Nat) : Prop where
  once : (progress.writes.map (·.1)).Nodup
  versions : ∀ key ∈ progress.asked, base.lastVersion startTs key ≠ none
  unblocked : progress.Unblocked base startTs

theorem answers_readOf (version : Nat → Option String) (progress : Progress)
    (none' : progress.writes = []) (reads : List (Nat × Nat)) :
    progress.answers version (reads.map readOf) =
      reads.map fun read => (read.1, version read.1) := by
  induction reads generalizing progress with
  | nil => rfl
  | cons read reads ih =>
      have unwritten : lastWrite progress.writes read.1 = none := by
        rw [none']
        rfl
      rw [List.map_cons, List.map_cons, Progress.answers, ih]
      · simp [Progress.answer, readOf, unwritten]
      · simpa [Progress.next, readOf, unwritten] using none'

variable {world : World} {process tid startTs : Nat} {accesses : List Access}

/-- What a transaction has committed is the last version afterwards. -/
theorem Committed.lastVersion {base : SimpleTServer} {progress : Progress} {key later : Nat}
    (committed : Committed base world startTs progress) (positive : 1 ≤ startTs)
    (above : startTs < later) (small : later ≤ uintMax)
    (written : key ∈ progress.writes.map (·.1)) :
    world.server.lastVersion later key = lastWrite progress.writes key := by
  have some' : progress.writes ≠ [] := by
    rintro none'
    simp [none'] at written
  obtain ⟨frozen, value⟩ := committed.written key written
  have last : world.server.lockManager.lastFrozen key later = startTs := by
    rw [lastFrozen_eq_iff (by omega) above frozen]
    intro ts after before
    rw [(committed.quiet some').idle.statusAt_free after (by omega)]
    simp
  rw [SimpleTServer.lastVersion, last, value]

theorem Committed.readsBack {base : SimpleTServer} {progress : Progress}
    (committed : Committed base world startTs progress) (positive : 1 ≤ startTs) :
    ReadsBack (World.step getNode) World.ready world startTs progress.writes := by
  intro process tid later reads above small fresh written
  cases reads with
  | nil =>
      refine ⟨_, .new tid later, rfl, ?_, rfl⟩
      simp [World.ready, Transaction.new]
  | cons read rest =>
      generalize whole : read :: rest = reads at fresh written ⊢
      have some' : progress.writes ≠ [] := by
        rintro none'
        have member := written read (by simp [← whole])
        simp [none'] at member
      obtain ⟨world₁, begun, same, solo⟩ :=
        Solo.start process tid (committed.quiet some') (show startTs + 1 ≤ later from above)
      have known : ∀ read ∈ reads,
          world.server.lastVersion later read.1 = lastWrite progress.writes read.1 :=
        fun read member => committed.lastVersion positive above small (written read member)
      rcases solo.accesses ((committed.quiet some').idle.mono above) (by omega) small
        (reads.map readOf) (same ▸ fresh) with ⟨-, key, asked, lost⟩ | ⟨world', ran, solo'⟩
      · obtain ⟨event, read'⟩ :=
          (Progress.exists_read_of_asked asked).resolve_left (by simp [Progress.start])
        obtain ⟨read, member, is⟩ := List.mem_map.1 read'
        obtain ⟨rfl, -⟩ : read.1 = key ∧ read.2 = event := by simpa [readOf] using is
        exact absurd ((known read member).symm.trans lost)
          (lastWrite_ne_none.2 (written read member))
      · refine ⟨world', _, by rw [run, begun]; exact ran, solo'.ready, ?_⟩
        rw [Progress.transaction, answers_readOf _ _ rfl, List.nil_append]
        exact List.map_congr_left fun read member => by rw [known read member]

/-- A transaction alone that has committed has found the way clear. -/
theorem CommitsAlone.clear {ended : World}
    (commits : CommitsAlone (World.step getNode) world process tid startTs accesses ended)
    (quiet : world.server.Quiet startTs world.sent) (positive : 1 ≤ startTs)
    (bound : startTs < uintMax) (fresh : Solo.Fresh world.server accesses) :
    (Progress.start.after accesses).Clear world.server startTs ∧
      Committed world.server ended startTs (Progress.start.after accesses) := by
  obtain ⟨world₁, begun, same, solo⟩ := Solo.start process tid quiet (Nat.le_refl startTs)
  have calls := solo.accesses quiet.idle positive bound.le accesses (same ▸ fresh)
  obtain ⟨called, transaction, ran, closed, there, stage⟩ := commits
  rw [run, begun] at ran
  rcases calls with ⟨⟨halt, failed⟩, -⟩ | ⟨world₂, ran', solo'⟩
  · exact absurd (ran.symm.trans failed) (by simp)
  · obtain rfl := Except.ok.inj (ran.symm.trans ran')
    cases solo'.closing quiet.idle positive bound closed with
    | called solo =>
        rcases solo.stage there with active | ⟨_, _, _, reading⟩
        · simp [active] at stage
        · simp [reading] at stage
    | unlisted present | listed present | announcing present | announced present =>
        obtain rfl := Option.some.inj (there.symm.trans present)
        simp [Progress.inStage] at stage
    | ended present committed =>
        obtain rfl := Option.some.inj (there.symm.trans present)
        have done := committed (by simpa [Progress.inStage] using stage)
        exact ⟨⟨done.once, solo'.versions, done.unblocked⟩, done⟩

/-- Where the way is clear, a transaction alone commits. -/
theorem Progress.Clear.commitsAlone (quiet : world.server.Quiet startTs world.sent)
    (clear : (Progress.start.after accesses).Clear world.server startTs)
    (positive : 1 ≤ startTs) (bound : startTs < uintMax)
    (fresh : Solo.Fresh world.server accesses) (process tid : Nat) :
    ∃ ended, CommitsAlone (World.step getNode) world process tid startTs accesses ended := by
  obtain ⟨world₁, begun, same, solo⟩ := Solo.start process tid quiet (Nat.le_refl startTs)
  obtain ⟨once, versions, unblocked⟩ := clear
  rcases solo.accesses quiet.idle positive bound.le accesses (same ▸ fresh) with
    ⟨-, key, asked, lost⟩ | ⟨called, ran, solo'⟩
  · exact absurd lost (versions key asked)
  · obtain ⟨world₂, reached, present, voted⟩ : ∃ world₂,
        Reach (World.step getNode) (fun _ move => Move.Commits world.begun move) called world₂ ∧
        world₂.transactions world.begun = some ((Progress.start.after accesses).inStage tid
          startTs _ (.phaseOne true ∅ true)) ∧
        Voted world.server world₂ tid startTs (Progress.start.after accesses) true := by
      have finished := solo'.reach_finish
      by_cases none' : (Progress.start.after accesses).writes = []
      · exact ⟨_, finished, solo'.finish_of_nil none'⟩
      · obtain ⟨world₂, vote, stepped, listed, voted⟩ := phaseOne_send false
          (finish_of_ne_nil none') solo'.serving quiet.idle bound none'
        obtain rfl := voted.votes.2 once
        exact ⟨world₂, finished.tail
          (show Move.Commits world.begun (.phaseOne world.begun false) from rfl) stepped, listed,
          voted⟩
    obtain ⟨ended, further, there, -⟩ :=
      exists_ended_of_voted present voted unblocked quiet.idle positive bound
    exact ⟨ended, called, _, by rw [run, begun]; exact ran, reached.trans further, there, rfl⟩

/-- Where all transactions have ended the server is quiet. -/
theorem Owed.quiet {bound : Nat} (owed : Owed world) (positive : 1 ≤ bound)
    (small : bound ≤ uintMax)
    (finished : ∀ id transaction, world.transactions id = some transaction →
      (∃ committing vote, transaction.stage = .ended committing vote) ∧
        transaction.startTs < bound) : world.server.Quiet bound world.sent := by
  have settled := owed.settled bound positive small fun id transaction there =>
    (finished id transaction there).2
  have nobody : ∀ tid, ¬ world.Owes tid := by
    rintro tid ⟨id, transaction, there, -, owes⟩
    obtain ⟨⟨committing, vote, stage⟩, -⟩ := finished id transaction there
    simp [Transaction.Owes, stage] at owes
  have nobodyOne : ∀ tid, ¬ world.OwesPhaseOne tid := by
    rintro tid ⟨id, transaction, there, -, owes⟩
    obtain ⟨⟨committing, vote, stage⟩, -⟩ := finished id transaction there
    simp [Transaction.OwesPhaseOne, stage] at owes
  have unrecorded : ∀ tid key, world.server.lockManager.record tid key = none := by
    intro tid key
    by_contra recorded
    exact nobody tid (settled.records tid key recorded)
  have unprepared : ∀ tid, world.server.rdyToCommit tid = none := by
    intro tid
    by_contra prepared
    exact nobody tid (owed.prepared tid prepared)
  refine
    { nodes := owed.nodes
      idle :=
        { wellFormed := settled.bounded.held.wellFormed
          unrecorded := unrecorded
          unlocked := fun key lock member => ?_
          below := settled.bounded.below
          marked := settled.bounded.marked }
      known := fun tid => ?_
      knownWrite := fun tid => ?_
      pendWrites := fun tid => ?_
      rdyToCommit := unprepared
      mutexes := ⟨?_, ?_⟩
      answered := fun event state present => ?_
      unsent := fun rid above => ?_ }
  · by_contra locked
    obtain ⟨tid, -, inside, -⟩ :=
      settled.bounded.held.holder key lock member (by simpa using locked)
    rw [unrecorded tid key] at inside
    simp [Inside] at inside
  · by_contra known
    exact nobody tid (owed.known tid known)
  · by_contra known
    exact nobodyOne tid (owed.knownWrite tid known)
  · by_contra written
    rcases owed.written tid written with owes | prepared
    · exact nobodyOne tid owes
    · exact prepared (unprepared tid)
  · by_contra held
    obtain ⟨id, transaction, there, committing, vote, remNodes, stage, -⟩ :=
      owed.mutex (by simpa using held)
    obtain ⟨⟨_, _, ended⟩, -⟩ := finished id transaction there
    simp [ended] at stage
  · by_contra held
    obtain ⟨id, transaction, there, committing, remNodes, vote, stage, -⟩ :=
      owed.writeMutex (by simpa using held)
    obtain ⟨⟨_, _, ended⟩, -⟩ := finished id transaction there
    simp [ended] at stage
  · obtain ⟨-, -, ⟨-, -, owes⟩ | answered⟩ := settled.reads event state present
    · exact absurd owes (nobody _)
    · exact answered
  · by_contra replied
    exact absurd (owed.replies rid replied) (by omega)

end Mvtx.Cluster
