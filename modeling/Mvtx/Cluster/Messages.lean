import Mvtx.Cluster.Refinement

/-!
# Serializability with messages

What holds of the world holds of the system that it stands for.  The
transactions that commit in a run of clients and server, however their messages
are delayed and overtake each other, have a serial history.
-/

namespace Mvtx.Cluster

open Lib Lib.Serial Server Client

variable {system : System} {world : World} {names : Nat → Nat}
  {labels : List Label} {moves : List Move} {label : Label} {move : Move} {id process : Nat}
  {coordinator : Coordinator} {waiting : List (Operation Nat String)} {transaction : Transaction}

/--
A Coordinator is created with an ID and a start timestamp that no other has, the
timestamp is in `1..2^64-2`, the tags of a client stay below `2^31`, and an abort
reaches the server only while its transaction shares no lock.
-/
def Isolated (system : System) : Label → Prop
  | .start process tid startTs =>
      DistinctIds system (.start process tid startTs) ∧ 1 ≤ startTs ∧ startTs < uintMax ∧
        ∀ id < system.created, (system.coordinators id).map (·.2.startTs) ≠ some startTs
  | .turn id => DistinctIds system (.turn id)
  | .handle rid _ _ => ∀ request ∈ system.requests rid, request = .p2c request.tid false →
      system.server.lockManager.SoleHolder request.tid
  | _ => True

instance (system : System) (label : Label) : Decidable (Isolated system label) :=
  match label with
  | .start process tid startTs => inferInstanceAs (Decidable
      (DistinctIds system (.start process tid startTs) ∧ 1 ≤ startTs ∧ startTs < uintMax ∧
        ∀ id < system.created, (system.coordinators id).map (·.2.startTs) ≠ some startTs))
  | .turn id => inferInstanceAs (Decidable (DistinctIds system (.turn id)))
  | .handle rid _ _ => inferInstanceAs (Decidable (∀ request ∈ system.requests rid,
      request = .p2c request.tid false → system.server.lockManager.SoleHolder request.tid))
  | .read _ _ | .write _ _ _ | .commit _ | .abort _ | .receive _ _ =>
    inferInstanceAs (Decidable True)

theorem Isolated.distinctIds (isolated : Isolated system label) : DistinctIds system label := by
  cases label with
  | start => exact isolated.1
  | turn => exact isolated
  | read | write | commit | abort | receive | handle => trivial

/-- `commit` returns true, or will. -/
def Commits (coordinator : Coordinator) : Prop :=
  match coordinator.control with
  | .phaseTwo _ vote _ | .ended _ vote => vote = true
  | .ready | .reading _ _ | .writing _ | .phaseOne _ _ => False

instance (coordinator : Coordinator) : Decidable (Commits coordinator) :=
  match coordinator with
  | ⟨_, _, _, _, _, .phaseTwo _ vote _, _⟩ | ⟨_, _, _, _, _, .ended _ vote, _⟩ =>
      inferInstanceAs (Decidable (vote = true))
  | ⟨_, _, _, _, _, .ready, _⟩ | ⟨_, _, _, _, _, .reading _ _, _⟩
  | ⟨_, _, _, _, _, .writing _, _⟩ | ⟨_, _, _, _, _, .phaseOne _ _, _⟩ =>
      inferInstanceAs (Decidable False)

/-- `commit` has been called, and no reply that has arrived refuses it a lock. -/
def MayCommit (coordinator : Coordinator) : Prop :=
  match coordinator.control with
  | .phaseOne committing loop => committing = true ∧ loop.vote = true
  | .phaseTwo _ vote _ | .ended _ vote => vote = true
  | .ready | .reading _ _ | .writing _ => False

/-! ## A Coordinator and its transaction -/

/-- A transaction between two calls has not committed. -/
theorem World.not_committed_of_ready {current : Transaction}
    (found : world.ready id = .ok transaction) (present : world.transactions id = some current) :
    ¬ current.Committed ∧ current.tid = transaction.tid ∧
      current.startTs = transaction.startTs := by
  obtain ⟨active, current', proceeds, collected⟩ := proceeds_ready found
  obtain rfl := Option.some.inj (present.symm.trans proceeds.present)
  refine ⟨?_, proceeds.tid.symm, proceeds.startTs.symm⟩
  rcases collected with rfl | ⟨rid, key, node, value, status, stage, -⟩
  · simp [Transaction.Committed, active]
  · simp [Transaction.Committed, stage]

/-- The transaction of a Coordinator has its ID and its start timestamp. -/
theorem Follows.present (follows : Follows system names world id coordinator waiting) :
    ∃ transaction, world.transactions id = some transaction ∧
      transaction.tid = coordinator.tid ∧ transaction.startTs = coordinator.startTs := by
  have of_ready : ∀ {ready : Transaction}, world.ready id = .ok ready →
      ∃ transaction, world.transactions id = some transaction ∧
        transaction.tid = ready.tid ∧ transaction.startTs = ready.startTs := by
    intro ready found
    obtain ⟨-, current, proceeds, -⟩ := proceeds_ready found
    exact ⟨current, proceeds.present, proceeds.tid.symm, proceeds.startTs.symm⟩
  cases follows with
  | ready _ stands | readAsked _ _ _ _ stands | writeAsked _ _ _ _ stands => exact of_ready stands
  | readServed _ _ _ stands | writeServed _ _ _ stands | phaseOne _ _ stands
  | phaseOneServed _ _ _ _ stands | phaseTwo _ _ stands | phaseTwoServed _ _ _ _ stands
  | ended _ stands => exact ⟨_, stands, rfl, rfl⟩

/-- The transaction of a Coordinator that commits has committed. -/
theorem Follows.committed (follows : Follows system names world id coordinator waiting)
    (commits : Commits coordinator) (present : world.transactions id = some transaction) :
    transaction.Committed := by
  cases follows with
  | ready control | readAsked control | writeAsked control | readServed control
  | writeServed control | phaseOne control | phaseOneServed control =>
      simp [Commits, control] at commits
  | phaseTwo control _ stands | phaseTwoServed control _ _ _ stands | ended control stands =>
      obtain rfl := Option.some.inj (present.symm.trans stands)
      simpa [Commits, control, transactionOf, Transaction.Committed] using commits

/-- A transaction that has committed has done all that its Coordinator has asked for. -/
theorem Follows.of_committed (follows : Follows system names world id coordinator waiting)
    (present : world.transactions id = some transaction) (committed : transaction.Committed) :
    waiting = [] ∧ MayCommit coordinator ∧ transaction.returned = coordinator.returned := by
  cases follows with
  | ready _ stands | readAsked _ _ _ _ stands | writeAsked _ _ _ _ stands =>
      exact absurd committed (World.not_committed_of_ready stands present).1
  | readServed _ _ _ stands | writeServed _ _ _ stands =>
      obtain rfl := Option.some.inj (present.symm.trans stands)
      simp [transactionOf, Transaction.Committed] at committed
  | phaseOne control _ stands =>
      obtain rfl := Option.some.inj (present.symm.trans stands)
      obtain ⟨committing, vote, -⟩ := committed
      exact ⟨rfl, by simp [MayCommit, control, committing, vote], rfl⟩
  | phaseOneServed control _ _ _ stands =>
      obtain rfl := Option.some.inj (present.symm.trans stands)
      obtain ⟨committing, votes, -⟩ := committed
      obtain ⟨vote, -⟩ := Bool.and_eq_true_iff.1 votes
      exact ⟨rfl, by simp [MayCommit, control, committing, vote], rfl⟩
  | phaseTwo control _ stands | phaseTwoServed control _ _ _ stands | ended control stands =>
      obtain rfl := Option.some.inj (present.symm.trans stands)
      exact ⟨rfl, by simp only [MayCommit, control]; exact committed, rfl⟩

/-- A transaction is there only if its Coordinator is. -/
theorem Refines.of_present {names : Equiv.Perm Nat}
    (refines : Refines labels system moves world names)
    (present : world.transactions id = some transaction) :
    ∃ process coordinator, system.coordinators id = some (process, coordinator) ∧
      coordinator.tid = transaction.tid ∧ coordinator.startTs = transaction.startTs := by
  cases there : system.coordinators id with
  | none => simp [(refines.absent id there).1] at present
  | some owner =>
      obtain ⟨waiting, follows, -⟩ := refines.follows id owner.1 owner.2 there
      obtain ⟨current, here, tid, startTs⟩ := follows.present
      obtain rfl := Option.some.inj (present.symm.trans here)
      exact ⟨owner.1, owner.2, rfl, tid.symm, startTs.symm⟩

/-- What is isolated in the system is unshared in the world. -/
theorem Refines.unshared {names : Equiv.Perm Nat}
    (refines : Refines labels system moves world names)
    (isolated : Isolated system label) (moved : system.moveOf label = some move) :
    Unshared world move := by
  have manager : world.server.lockManager = system.server.lockManager := by
    rw [refines.server]
    rfl
  cases label with
  | start process tid startTs =>
      obtain rfl := Option.some.inj moved
      obtain ⟨distinct, positive, bound, fresh⟩ := isolated
      have known : ∀ id < world.begun, ∀ transaction, world.transactions id = some transaction →
          transaction.tid ≠ tid ∧ transaction.startTs ≠ startTs := by
        intro id below transaction present
        obtain ⟨process, coordinator, there, tid', startTs'⟩ := refines.of_present present
        rw [refines.begun] at below
        have differs := distinct id below
        have differs' := fresh id below
        rw [there] at differs differs'
        exact ⟨fun same => differs (congrArg some (tid'.trans same)),
          fun same => differs' (congrArg some (startTs'.trans same))⟩
      refine ⟨⟨fun id below same => ?_, positive, bound⟩, fun id below same => ?_⟩
      · obtain ⟨transaction, present, owner⟩ := Option.map_eq_some_iff.1 same
        exact (known id below transaction present).1 owner
      · obtain ⟨transaction, present, owner⟩ := Option.map_eq_some_iff.1 same
        exact (known id below transaction present).2 owner
  | read id key =>
      obtain ⟨key, rfl⟩ : ∃ key, move = .read id key 0 := by
        simp only [System.moveOf] at moved
        split at moved
        · split at moved
          · exact absurd moved (by simp)
          · exact ⟨_, (Option.some.inj moved).symm⟩
        · exact absurd moved (by simp)
      trivial
  | write | receive => exact absurd moved (by simp [System.moveOf])
  | commit | abort =>
      obtain rfl := Option.some.inj moved
      trivial
  | turn id =>
      simp only [System.moveOf] at moved
      split at moved
      swap
      · exact absurd moved (by simp)
      next process coordinator there =>
      obtain ⟨waiting, follows, -⟩ := refines.follows id process coordinator there
      split at moved
      · split at moved
        · obtain rfl := Option.some.inj moved
          trivial
        · exact absurd moved (by simp)
      · next committing vote loop control =>
          split at moved
          swap
          · exact absurd moved (by simp)
          next empty =>
          obtain rfl := Option.some.inj moved
          -- The loop is over, so that nothing is sent.
          intro transaction present aborts
          cases follows with
          | phaseTwo control' _ stands | phaseTwoServed control' _ _ _ stands =>
              obtain ⟨-, -, rfl⟩ := Control.phaseTwo.inj (control.symm.trans control')
              obtain rfl := Option.some.inj (Option.mem_def.1 present ▸ stands)
              simp [Transaction.Aborts, transactionOf, empty] at aborts
          | ready control' | readAsked control' | writeAsked control' | readServed control'
          | writeServed control' | phaseOne control' | phaseOneServed control'
          | ended control' => exact absurd (control.symm.trans control') (by simp)
      · exact absurd moved (by simp)
      · exact absurd moved (by simp)
      · exact absurd moved (by simp)
      · exact absurd moved (by simp)
  | handle rid event unset =>
      simp only [System.moveOf] at moved
      split at moved
      · obtain rfl := Option.some.inj moved
        trivial
      · obtain rfl := Option.some.inj moved
        trivial
      · obtain rfl := Option.some.inj moved
        trivial
      · next call tid vote called asked =>
          obtain rfl := Option.some.inj moved
          intro transaction present aborts
          obtain ⟨-, process, coordinator, there, -⟩ :=
            refines.consistent.orderly.calls rid call.coordinator call.tag called
          obtain ⟨rfl, -, committing, loop, control, -⟩ :=
            (refines.consistent.agrees _ _ _ there).requested called asked
          obtain ⟨waiting, follows, -⟩ := refines.follows _ _ _ there
          rw [manager]
          cases follows with
          | phaseTwo control' _ stands | phaseTwoServed control' _ _ _ stands =>
              obtain ⟨-, rfl, -⟩ := Control.phaseTwo.inj (control.symm.trans control')
              obtain rfl := Option.some.inj (Option.mem_def.1 present ▸ stands)
              obtain rfl := aborts.1
              exact isolated _ asked rfl
          | ready control' | readAsked control' | writeAsked control' | readServed control'
          | writeServed control' | phaseOne control' | phaseOneServed control'
          | ended control' => exact absurd (control.symm.trans control') (by simp)
      · exact absurd moved (by simp)

/-! ## The serial history -/

/-- The start timestamp of a Coordinator. -/
def System.startTs (system : System) (id : Nat) : Nat :=
  (system.coordinators id).elim 0 (·.2.startTs)

/-- A run of the system is one of the world, and that is one of the protocol. -/
theorem exists_refines
    (trace : Trace (System.step getNode) Isolated (.first .initial) labels system) :
    ∃ moves world names state, Trace (World.step getNode) Unshared .first moves world ∧
      Refines labels system moves world names ∧ Coherent world ∧
      Multiversion.Sound (fun _ => "0") state ∧ Exact world.server state ∧
      Mirrors (program moves) world.transactions world.server state := by
  obtain ⟨moves, world, trace', names, refines⟩ := Refines.of_trace
    (fun _ _ => Isolated.distinctIds)
    (fun _ _ _ _ _ _ _ refines isolated moved => refines.unshared isolated moved) trace
  obtain ⟨state, steps, exact', mirrors⟩ := exists_protocol (trace'.mono fun _ _ => Unshared.soleAborts)
  exact ⟨moves, world, names, state, trace', refines,
    coherent_of_reach (trace'.reach.mono fun _ _ => Unshared.distinctStarts), .of_steps steps,
    exact', mirrors⟩

namespace Refines

variable {names : Equiv.Perm Nat}

/-- A transaction that commits has a Coordinator, which waits for nothing. -/
theorem exists_owner (refines : Refines labels system moves world names)
    (coherent : Coherent world) (member : id ∈ world.committed) :
    ∃ process coordinator transaction,
      system.coordinators id = some (process, coordinator) ∧
      world.transactions id = some transaction ∧ transaction.Committed ∧
      requested labels id = program moves id ∧ MayCommit coordinator ∧
      transaction.returned = coordinator.returned ∧
      transaction.startTs = coordinator.startTs := by
  obtain ⟨transaction, present, committed⟩ := (mem_committed coherent).1 member
  cases there : system.coordinators id with
  | none => simp [(refines.absent id there).1] at present
  | some owner =>
      obtain ⟨waiting, follows, whole⟩ := refines.follows id owner.1 owner.2 there
      obtain ⟨rfl, may, returned⟩ := follows.of_committed present committed
      obtain ⟨current, here, -, startTs⟩ := follows.present
      obtain rfl := Option.some.inj (present.symm.trans here)
      exact ⟨owner.1, owner.2, transaction, rfl, present, committed, by simpa using whole, may,
        returned, startTs⟩

theorem mem_committed (refines : Refines labels system moves world names)
    (coherent : Coherent world) (there : system.coordinators id = some (process, coordinator))
    (commits : Commits coordinator) : id ∈ world.committed := by
  obtain ⟨waiting, follows, -⟩ := refines.follows id process coordinator there
  obtain ⟨transaction, present, -⟩ := follows.present
  exact (Cluster.mem_committed coherent).2
    ⟨transaction, present, follows.committed commits present⟩

theorem startTs_eq (refines : Refines labels system moves world names) (coherent : Coherent world)
    (member : id ∈ world.committed) : world.startTs id = system.startTs id := by
  obtain ⟨_, _, _, there, present, -, -, -, -, startTs⟩ := refines.exists_owner coherent member
  simp [World.startTs, System.startTs, there, present, startTs]

end Refines

/--
In every run of clients and server in which no abort unlocks a shared lock, the
Coordinators that commit have a serial history: in some order, which is that of
their start timestamps, the reads of each have returned what they return when
the transactions run one after another.  The order has every Coordinator whose
`commit` returns true, and none that has not called `commit` or has received a
reply that refuses it a lock.
-/
theorem serializable_of_trace
    (trace : Trace (System.step getNode) Isolated (.first .initial) labels system) :
    ∃ order : List Nat,
      (∀ id process coordinator, system.coordinators id = some (process, coordinator) →
        Commits coordinator → id ∈ order) ∧
      (∀ id ∈ order, ∃ process coordinator,
        system.coordinators id = some (process, coordinator) ∧ MayCommit coordinator) ∧
      (order.Pairwise fun first second => system.startTs first < system.startTs second) ∧
      ∀ before id after process coordinator, order = before ++ id :: after →
        system.coordinators id = some (process, coordinator) →
        coordinator.returned =
          (execute (requested labels id)
            (executeAll (before.map (requested labels)) fun _ => "0")).1.map
              fun answer => (answer.1, some answer.2) := by
  obtain ⟨moves, world, names, state, trace', refines, coherent, -⟩ := exists_refines trace
  have owner := fun id (member : id ∈ world.committed) => refines.exists_owner coherent member
  refine ⟨world.committed, fun id process coordinator there commits =>
    refines.mem_committed coherent there commits, fun id member => ?_, ?_,
    fun before id after process coordinator order there => ?_⟩
  · obtain ⟨process, coordinator, -, there, -, -, -, may, -⟩ := owner id member
    exact ⟨process, coordinator, there, may⟩
  · refine (startTs_committed coherent (apart_of_reach trace'.reach)).imp_of_mem
      fun {first second} member member' earlier => ?_
    rwa [← refines.startTs_eq coherent member, ← refines.startTs_eq coherent member']
  · have programs : ∀ other ∈ before ++ id :: after,
        requested labels other = program moves other := fun other member => by
      obtain ⟨_, _, _, -, -, -, whole, -⟩ := owner other (order ▸ member)
      exact whole
    obtain ⟨_, _, transaction, there', present, -, whole, -, returned, -⟩ :=
      owner id (order ▸ List.mem_append_right _ List.mem_cons_self)
    obtain ⟨rfl, rfl⟩ := Prod.mk.inj (Option.some.inj (there.symm.trans there'))
    rw [← returned, whole, List.map_congr_left fun other member =>
      programs other (List.mem_append_left _ member)]
    exact returned_of_committed trace' present order

/--
A transaction at 30 reads a key that one at 10 has written, and then a key that
one at 20 has written, which has begun and committed in between; one at 40
aborts.
-/
theorem serializable_of_trace_of_four :
    ∃ (coordinator : Coordinator) (labels : List Label) (before after : List Nat),
      requested labels 1 = [.read 1, .read 2] ∧
      0 ∈ before ++ 1 :: after ∧ 2 ∈ before ++ 1 :: after ∧
      coordinator.returned =
        (execute (requested labels 1)
          (executeAll (before.map (requested labels)) fun _ => "0")).1.map
            fun answer => (answer.1, some answer.2) := by
  obtain ⟨system, trace, holds⟩ := exists_trace_of_admits Isolated
    [.start 0 7 10, .start 1 8 30, .write 0 1 "a", .handle 1 0 false, .receive 0 1, .commit 0,
      .turn 0, .handle 2 0 false, .receive 0 2, .turn 0, .turn 0, .handle 3 0 false,
      .read 1 1, .start 0 9 20, .handle 4 1 false, .write 2 2 "c", .receive 1 4,
      .handle 5 0 false, .receive 2 5, .commit 2, .turn 2, .handle 6 0 false, .receive 2 6,
      .turn 2, .turn 2, .handle 7 0 false, .read 1 2, .handle 8 2 false, .receive 1 8,
      .commit 1, .turn 1, .start 0 11 40, .write 3 5 "d", .handle 9 0 false, .receive 3 9,
      .abort 3, .turn 3, .handle 10 0 false, .receive 3 10, .turn 3, .turn 3,
      .handle 11 0 false]
    (fun system => (List.range 3).all fun id =>
      (system.coordinators id).any fun owner => decide (Commits owner.2))
    (show admits (System.step getNode) _ (.first .initial) _ = true by decide)
    (show ends (System.step getNode) _ (.first .initial) _ = true by decide)
  simp only [List.all_eq_true, List.mem_range, Option.any_eq_true, decide_eq_true_eq] at holds
  obtain ⟨order, all, -, -, serial⟩ := serializable_of_trace trace
  have member : ∀ id < 3, id ∈ order := by
    intro id below
    obtain ⟨owner, present, commits⟩ := holds id below
    exact all id owner.1 owner.2 present commits
  obtain ⟨owner, present, -⟩ := holds 1 (by decide)
  obtain ⟨before, after, rfl⟩ := List.append_of_mem (member 1 (by decide))
  exact ⟨owner.2, _, before, after, rfl, member 0 (by decide), member 2 (by decide),
    serial before 1 after owner.1 owner.2 rfl present⟩

end Mvtx.Cluster
