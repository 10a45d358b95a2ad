import Mvtx.Cluster.Messages

/-!
# What is in the store

The versions in the store are those of the transactions that commit, and no
others; each is installed under the start timestamp of its transaction.  So the
versions up to a timestamp are the contents that the transactions up to that
timestamp leave, run one after another.
-/

namespace Mvtx.Cluster

open Lib Lib.Serial Lib.Multiversion Lock Server Client

variable {system : System} {world : World} {names : Equiv.Perm Nat} {state : Protocol}
  {labels : List Label} {moves : List Move} {id process key ts : Nat} {value : String}
  {coordinator : Coordinator} {transaction : Transaction}

/-- `commit` or `abort` has returned. -/
def Ended (coordinator : Coordinator) : Prop :=
  match coordinator.control with
  | .ended _ _ => True
  | .ready | .reading _ _ | .writing _ | .phaseOne _ _ | .phaseTwo _ _ _ => False

instance (coordinator : Coordinator) : Decidable (Ended coordinator) :=
  match coordinator with
  | ⟨_, _, _, _, _, .ended _ _, _⟩ => inferInstanceAs (Decidable True)
  | ⟨_, _, _, _, _, .ready, _⟩ | ⟨_, _, _, _, _, .reading _ _, _⟩
  | ⟨_, _, _, _, _, .writing _, _⟩ | ⟨_, _, _, _, _, .phaseOne _ _, _⟩
  | ⟨_, _, _, _, _, .phaseTwo _ _ _, _⟩ => inferInstanceAs (Decidable False)

theorem Ended.exists_control (ended : Ended coordinator) :
    ∃ committing vote, coordinator.control = .ended committing vote := by
  unfold Ended at ended
  split at ended
  · next committing vote control => exact ⟨committing, vote, control⟩
  all_goals exact ended.elim

/-! ## Versions and transactions -/

/-- Once a transaction that commits has ended, its versions are installed. -/
theorem settled_of_ended (coherent : Coherent world)
    (mirrors : Mirrors (program moves) world.transactions world.server state)
    (present : world.transactions id = some transaction) {committing : Bool}
    (stage : transaction.stage = .ended committing true) {record : Account}
    (here : state.records transaction.tid = some record) :
    record.phase = .installed ∨ ∀ key, lastWritten record.log key = none := by
  obtain ⟨record', here', logged⟩ := mirrors.logged id transaction present
  obtain rfl := Option.some.inj (here.symm.trans here')
  have forgotten : world.server.tidToNodes transaction.tid = none := by
    have accounted := coherent.accounted id transaction present
    simp only [Transaction.Accounted, stage] at accounted
    exact not_not.1 accounted.known.1
  have finishing : transaction.Finishing := by simp [Transaction.Finishing, stage]
  rcases logged.decided.2 (by simp [Transaction.Committed, stage]) with decided | installed
  · exact .inr (logged.settled finishing forgotten (.inr decided))
  · exact .inl installed

/-- A version is that of a transaction that commits, and whose `TP2C` has been handled. -/
theorem exists_writer (sound : Sound (fun _ => "0") state) (exact' : Exact world.server state)
    (mirrors : Mirrors (program moves) world.transactions world.server state) (positive : 1 ≤ ts)
    (stored : world.server.get key ts = some value) :
    ∃ id transaction, world.transactions id = some transaction ∧ transaction.Committed ∧
      transaction.Finishing ∧ transaction.startTs = ts ∧
      transaction.pendWrites key = some value := by
  rw [← exact'] at stored
  rcases sound.written key ts (sound.versions key ts (by simp [stored])) with
    rfl | ⟨tid, record, here, installed, rfl, wrote⟩
  · exact absurd positive (by simp)
  · obtain ⟨id, transaction, present, rfl⟩ := mirrors.known tid (by simp [here])
    obtain ⟨record', here', logged⟩ := mirrors.logged id transaction present
    obtain rfl := Option.some.inj (here.symm.trans here')
    obtain ⟨last, written⟩ := Option.ne_none_iff_exists'.1 wrote
    have version := ((sound.fits _ _ here).installed installed key last written).2
    obtain rfl := Option.some.inj (stored.symm.trans version)
    refine ⟨id, transaction, present, logged.decided.1 (.inr installed), ?_, logged.start.symm,
      by rw [← logged.written, written]⟩
    by_contra unfinished
    rcases logged.live fun finishing => absurd finishing unfinished with open' | open' <;>
      simp [installed] at open'

/-- A transaction that has got past its `TP1C` has the Coordinator that says so. -/
theorem Follows.of_finishing {names : Nat → Nat} {waiting : List (Operation Nat String)}
    (follows : Follows system names world id coordinator waiting)
    (present : world.transactions id = some transaction) (committed : transaction.Committed)
    (finishing : transaction.Finishing) :
    Commits coordinator ∧ transaction.pendWrites = coordinator.pendWrites := by
  cases follows with
  | ready _ stands | readAsked _ _ _ _ stands | writeAsked _ _ _ _ stands =>
      exact absurd committed (World.not_committed_of_ready stands present).1
  | readServed _ _ _ stands | writeServed _ _ _ stands | phaseOne _ _ stands
  | phaseOneServed _ _ _ _ stands =>
      obtain rfl := Option.some.inj (present.symm.trans stands)
      simp [transactionOf, Transaction.Finishing] at finishing
  | phaseTwo control _ stands | phaseTwoServed control _ _ _ stands | ended control stands =>
      obtain rfl := Option.some.inj (present.symm.trans stands)
      exact ⟨by simp only [Commits, control]; exact committed, rfl⟩

/-- The transaction of a Coordinator that has ended has ended as well. -/
theorem Follows.of_ended {names : Nat → Nat} {waiting : List (Operation Nat String)}
    {committing vote : Bool} (follows : Follows system names world id coordinator waiting)
    (ended : coordinator.control = .ended committing vote) :
    world.transactions id = some (transactionOf coordinator (.ended committing vote)) := by
  cases follows with
  | ended control stands =>
      obtain ⟨rfl, rfl⟩ := Control.ended.inj (ended.symm.trans control)
      exact stands
  | ready control | readAsked control | writeAsked control | readServed control
  | writeServed control | phaseOne control | phaseOneServed control | phaseTwo control
  | phaseTwoServed control => exact absurd (ended.symm.trans control) (by simp)

theorem Refines.get_eq (refines : Refines labels system moves world names) :
    world.server.get = system.server.get := by
  rw [refines.server, get_rename]

/--
In every run in which no abort unlocks a shared lock, each version in the store
is what a transaction that commits has written last, under its start timestamp;
and once `commit` has returned true, all that the transaction has written is in
the store.
-/
theorem stored_of_trace
    (trace : Trace (System.step getNode) Isolated (.first .initial) labels system) :
    (∀ key ts value, 1 ≤ ts → system.server.get key ts = some value →
      ∃ id process coordinator, system.coordinators id = some (process, coordinator) ∧
        Commits coordinator ∧ coordinator.startTs = ts ∧
        coordinator.pendWrites key = some value) ∧
    ∀ id process coordinator, system.coordinators id = some (process, coordinator) →
      Commits coordinator → Ended coordinator →
      ∀ key value, coordinator.pendWrites key = some value →
        system.server.get key coordinator.startTs = some value := by
  obtain ⟨moves, world, names, state, -, refines, coherent, sound, exact', mirrors⟩ :=
    exists_refines trace
  rw [← refines.get_eq]
  constructor
  · intro key ts value positive stored
    obtain ⟨id, transaction, present, committed, finishing, rfl, written⟩ :=
      exists_writer sound exact' mirrors positive stored
    obtain ⟨process, coordinator, _, there, present', -, -, -, -, startTs⟩ :=
      refines.exists_owner coherent ((mem_committed coherent).2 ⟨transaction, present, committed⟩)
    obtain rfl := Option.some.inj (present.symm.trans present')
    obtain ⟨waiting, follows, -⟩ := refines.follows id process coordinator there
    obtain ⟨commits, same⟩ := follows.of_finishing present committed finishing
    exact ⟨id, process, coordinator, there, commits, startTs.symm, by rw [← same, written]⟩
  · intro id process coordinator there commits ended key value written
    obtain ⟨committing, vote, control⟩ := ended.exists_control
    obtain rfl : vote = true := by simpa [Commits, control] using commits
    obtain ⟨waiting, follows, -⟩ := refines.follows id process coordinator there
    have present := follows.of_ended control
    obtain ⟨record, here, logged⟩ := mirrors.logged id _ present
    have wrote : lastWritten record.log key = some value := by
      rw [logged.written]
      exact written
    have installed := (settled_of_ended coherent mirrors present rfl here).resolve_right
      fun nothing => by simp [nothing] at wrote
    have version := ((sound.fits _ _ here).installed installed key value wrote).2
    rw [exact', logged.start] at version
    exact version

/-- One transaction has committed and one has aborted, both with a write to the key. -/
theorem stored_of_trace_of_two :
    ∃ system : System, system.server.get 1 10 = some "a" ∧
      ∀ ts value, 1 ≤ ts → system.server.get 1 ts = some value →
        ∃ id process coordinator, system.coordinators id = some (process, coordinator) ∧
          Commits coordinator ∧ coordinator.startTs = ts ∧
          coordinator.pendWrites 1 = some value := by
  obtain ⟨system, trace, holds⟩ := exists_trace_of_admits Isolated
    [.start 0 7 10, .start 1 8 30, .write 0 1 "a", .handle 1 0 false, .receive 0 1, .commit 0,
      .turn 0, .handle 2 0 false, .receive 0 2, .turn 0, .turn 0, .handle 3 0 false,
      .receive 0 3, .turn 0, .write 1 1 "b", .handle 4 0 false, .receive 1 4, .abort 1,
      .turn 1, .handle 5 0 false, .receive 1 5, .turn 1, .turn 1, .handle 6 0 false]
    (fun system : System => (system.coordinators 0).any fun owner : Nat × Coordinator =>
      decide (Commits owner.2 ∧ Ended owner.2 ∧ owner.2.startTs = 10 ∧
        owner.2.pendWrites 1 = some "a"))
    (show admits (System.step getNode) _ (.first .initial) _ = true by decide)
    (show ends (System.step getNode) _ (.first .initial) _ = true by decide)
  simp only [Option.any_eq_true, decide_eq_true_eq] at holds
  obtain ⟨owner, present, commits, ended, startTs, written⟩ := holds
  obtain ⟨sources, installed⟩ := stored_of_trace trace
  exact ⟨system, startTs ▸ installed 0 owner.1 owner.2 present commits ended 1 "a" written,
    sources 1⟩

/-! ## Snapshots -/

/-- Where a list that is sorted by some number passes a bound. -/
theorem exists_split (bound : Nat) (number : Nat → Nat) (order : List Nat)
    (sorted : order.Pairwise fun first second => number first < number second) :
    ∃ before after, order = before ++ after ∧ (∀ id ∈ before, number id ≤ bound) ∧
      ∀ id ∈ after, bound < number id := by
  induction order with
  | nil => exact ⟨[], [], rfl, by simp, by simp⟩
  | cons first order ih =>
      obtain ⟨above, sorted'⟩ := List.pairwise_cons.1 sorted
      by_cases within : number first ≤ bound
      · obtain ⟨before, after, rfl, early, late⟩ := ih sorted'
        exact ⟨first :: before, after, rfl, List.forall_mem_cons.2 ⟨within, early⟩, late⟩
      · have past := Nat.lt_of_not_le within
        exact ⟨[], first :: order, rfl, by simp, List.forall_mem_cons.2
          ⟨past, fun id member => past.trans (above id member)⟩⟩

/-- Two lists that are sorted by the same number and have the same elements are the same. -/
theorem eq_of_sorted (number : Nat → Nat) {order order' : List Nat}
    (sorted : order.Pairwise fun first second => number first < number second)
    (sorted' : order'.Pairwise fun first second => number first < number second)
    (same : ∀ id, id ∈ order ↔ id ∈ order') : order = order' := by
  have nodup : ∀ {ids : List Nat}, ids.Pairwise (fun first second => number first < number second) →
      ids.Nodup := fun pairwise => pairwise.imp fun less equal => by simp [equal] at less
  refine ((List.perm_ext_iff_of_nodup (nodup sorted) (nodup sorted')).2 same).eq_of_pairwise
    (fun first second _ _ less greater => ?_) sorted sorted'
  exact absurd less (Nat.lt_asymm greater)

/--
The newest versions up to a timestamp are what the transactions up to it leave,
if all of these have ended.
-/
theorem snapshot_of_committed (coherent : Coherent world) (apart : world.Apart)
    (sound : Sound (fun _ => "0") state) (exact' : Exact world.server state)
    (mirrors : Mirrors (program moves) world.transactions world.server state)
    {before after : List Nat} (order : world.committed = before ++ after)
    (early : ∀ id ∈ before, world.startTs id ≤ ts) (late : ∀ id ∈ after, ts < world.startTs id)
    (ended : ∀ id ∈ before, ∃ transaction committing, world.transactions id = some transaction ∧
      transaction.stage = .ended committing true) (key : Nat) :
    ∃ latest ≤ ts, world.server.get key latest =
        some (executeAll (before.map (program moves)) (fun _ => "0") key) ∧
      ∀ later, latest < later → later ≤ ts → world.server.get key later = none := by
  have arranged := arranged_committed coherent apart mirrors
  have schedule := arranged.schedule coherent mirrors
  rw [order, List.map_append] at schedule
  -- The record of a transaction that commits.
  have known : ∀ id ∈ before ++ after, ∀ record, state.records (world.tid id) = some record →
      record.start = world.startTs id := by
    intro id member record here
    obtain ⟨transaction, present, -⟩ := (mem_committed coherent).1 (order ▸ member)
    obtain ⟨record', here', logged⟩ := mirrors.logged id transaction present
    simp only [World.tid, World.startTs, present, Option.elim_some] at here ⊢
    obtain rfl := Option.some.inj (here.symm.trans here')
    exact logged.start
  obtain ⟨latest, within, newest, none'⟩ := Sound.snapshot sound schedule
    (by
      intro tid member record here
      obtain ⟨id, earlier, rfl⟩ := List.mem_map.1 member
      obtain ⟨transaction, committing, present, stage⟩ := ended id earlier
      simp only [World.tid, present, Option.elim_some] at here
      exact settled_of_ended coherent mirrors present stage here)
    (by
      intro tid member record here
      obtain ⟨id, earlier, rfl⟩ := List.mem_map.1 member
      rw [known id (List.mem_append_left _ earlier) record here]
      exact early id earlier)
    (by
      intro tid member record here
      obtain ⟨id, later, rfl⟩ := List.mem_map.1 member
      rw [known id (List.mem_append_right _ later) record here]
      exact late id later) key
  have legal := arranged.legal coherent sound mirrors
  rw [order, List.map_append, List.flatten_append, legal_append] at legal
  rw [List.map_map] at newest
  refine ⟨latest, within, ?_, fun later past below => ?_⟩
  · rw [executeAll_committed coherent mirrors
      (fun id member => order ▸ List.mem_append_left _ member) legal.1, ← exact']
    exact newest
  · rw [← exact']
    exact none' later past below

namespace Refines

/-- Whoever has committed up to a timestamp has ended, if all have that may commit. -/
theorem ended_of_committed (refines : Refines labels system moves world names)
    (coherent : Coherent world)
    (ended : ∀ id process coordinator, system.coordinators id = some (process, coordinator) →
      MayCommit coordinator → coordinator.startTs ≤ ts → Ended coordinator)
    (member : id ∈ world.committed) (within : world.startTs id ≤ ts) :
    ∃ process coordinator committing, system.coordinators id = some (process, coordinator) ∧
      coordinator.startTs ≤ ts ∧ coordinator.control = .ended committing true ∧
      world.transactions id = some (transactionOf coordinator (.ended committing true)) := by
  obtain ⟨process, coordinator, transaction, there, present, -, -, may, -, startTs⟩ :=
    refines.exists_owner coherent member
  have within' : coordinator.startTs ≤ ts := by
    simpa [World.startTs, present, startTs] using within
  obtain ⟨committing, vote, control⟩ :=
    (ended id process coordinator there may within').exists_control
  obtain rfl : vote = true := by simpa [MayCommit, control] using may
  obtain ⟨waiting, follows, -⟩ := refines.follows id process coordinator there
  exact ⟨process, coordinator, committing, there, within', control, follows.of_ended control⟩

/-- The versions up to a timestamp are what the transactions up to it have left. -/
theorem exists_newest (refines : Refines labels system moves world names)
    (coherent : Coherent world) (apart : world.Apart) (sound : Sound (fun _ => "0") state)
    (exact' : Exact world.server state)
    (mirrors : Mirrors (program moves) world.transactions world.server state)
    (ended : ∀ id process coordinator, system.coordinators id = some (process, coordinator) →
      MayCommit coordinator → coordinator.startTs ≤ ts → Ended coordinator)
    {before after : List Nat} (order : world.committed = before ++ after)
    (early : ∀ id ∈ before, world.startTs id ≤ ts) (late : ∀ id ∈ after, ts < world.startTs id)
    (key : Nat) :
    ∃ latest ≤ ts, system.server.get key latest =
        some (executeAll (before.map (requested labels)) (fun _ => "0") key) ∧
      ∀ later, latest < later → later ≤ ts → system.server.get key later = none := by
  have committed : ∀ id ∈ before, id ∈ world.committed := fun id member =>
    order ▸ List.mem_append_left _ member
  rw [← refines.get_eq, List.map_congr_left fun id member => by
    obtain ⟨_, _, _, -, -, -, whole, -⟩ := refines.exists_owner coherent (committed id member)
    exact whole]
  refine snapshot_of_committed coherent apart sound exact' mirrors order early late
    (fun id member => ?_) key
  obtain ⟨_, _, committing, -, -, -, present⟩ :=
    refines.ended_of_committed coherent ended (committed id member) (early id member)
  exact ⟨_, committing, present, rfl⟩

end Refines

/--
When every Coordinator that may commit and starts up to a timestamp has ended,
the newest versions up to this timestamp are what the transactions that have
committed up to it leave, run one after another in the order of their starts.
-/
theorem snapshot_of_trace
    (trace : Trace (System.step getNode) Isolated (.first .initial) labels system) (ts : Nat)
    (ended : ∀ id process coordinator, system.coordinators id = some (process, coordinator) →
      MayCommit coordinator → coordinator.startTs ≤ ts → Ended coordinator)
    (before : List Nat)
    (sorted : before.Pairwise fun first second => system.startTs first < system.startTs second)
    (all : ∀ id, id ∈ before ↔ ∃ process coordinator,
      system.coordinators id = some (process, coordinator) ∧ Commits coordinator ∧
        coordinator.startTs ≤ ts)
    (key : Nat) :
    ∃ latest ≤ ts, system.server.get key latest =
        some (executeAll (before.map (requested labels)) (fun _ => "0") key) ∧
      ∀ later, latest < later → later ≤ ts → system.server.get key later = none := by
  obtain ⟨moves, world, names, state, trace', refines, coherent, sound, exact', mirrors⟩ :=
    exists_refines trace
  have apart := apart_of_reach trace'.reach
  obtain ⟨first, after, order, early, late⟩ := exists_split ts world.startTs
    world.committed (startTs_committed coherent apart)
  have committed : ∀ id ∈ first, id ∈ world.committed := fun id member =>
    order ▸ List.mem_append_left _ member
  obtain rfl : before = first := by
    refine eq_of_sorted system.startTs sorted ?_ fun id => (all id).trans ⟨?_, fun member => ?_⟩
    · refine (List.pairwise_append.1
        (order ▸ startTs_committed coherent apart)).1.imp_of_mem
        fun {earlier later} member member' less => ?_
      rwa [← refines.startTs_eq coherent (committed _ member),
        ← refines.startTs_eq coherent (committed _ member')]
    · rintro ⟨process, coordinator, there, commits, within⟩
      have member := refines.mem_committed coherent there commits
      rcases List.mem_append.1 (order ▸ member) with earlier | later
      · exact earlier
      · have past := late id later
        rw [refines.startTs_eq coherent member] at past
        exact absurd within (Nat.not_le_of_lt (by simpa [System.startTs, there] using past))
    · obtain ⟨process, coordinator, committing, there, within, control, -⟩ :=
        refines.ended_of_committed coherent ended (committed id member) (early id member)
      exact ⟨process, coordinator, there, by simp [Commits, control], within⟩
  exact refines.exists_newest coherent apart sound exact' mirrors ended order early late key

/-- Transactions at 10 and at 20 have committed, while one at 30 is in the middle of a read. -/
theorem snapshot_of_trace_of_two :
    ∃ (system : System) (labels : List Label),
      requested labels 0 = [.write 1 "a"] ∧ requested labels 2 = [.write 2 "c"] ∧
      ∀ key, ∃ latest ≤ 25, system.server.get key latest =
          some (executeAll ([0, 2].map (requested labels)) (fun _ => "0") key) ∧
        ∀ later, latest < later → later ≤ 25 → system.server.get key later = none := by
  obtain ⟨system, trace, holds⟩ := exists_trace_of_admits Isolated
    [.start 0 7 10, .start 1 8 30, .write 0 1 "a", .handle 1 0 false, .receive 0 1, .commit 0,
      .turn 0, .handle 2 0 false, .receive 0 2, .turn 0, .turn 0, .handle 3 0 false,
      .receive 0 3, .turn 0, .read 1 1, .start 0 9 20, .handle 4 1 false, .write 2 2 "c",
      .receive 1 4, .handle 5 0 false, .receive 2 5, .commit 2, .turn 2, .handle 6 0 false,
      .receive 2 6, .turn 2, .turn 2, .handle 7 0 false, .receive 2 7, .turn 2]
    (fun system : System => decide (system.created = 3) &&
      (system.coordinators 0).any (fun owner : Nat × Coordinator =>
        decide (Commits owner.2 ∧ Ended owner.2 ∧ owner.2.startTs = 10)) &&
      (system.coordinators 1).any (fun owner : Nat × Coordinator =>
          decide (owner.2.startTs = 30)) &&
      (system.coordinators 2).any fun owner : Nat × Coordinator =>
        decide (Commits owner.2 ∧ Ended owner.2 ∧ owner.2.startTs = 20))
    (show admits (System.step getNode) _ (.first .initial) _ = true by decide)
    (show ends (System.step getNode) _ (.first .initial) _ = true by decide)
  simp only [Bool.and_eq_true, Option.any_eq_true, decide_eq_true_eq, and_assoc] at holds
  obtain ⟨created, ⟨first, here, commits, ended, startTs⟩, ⟨second, here', startTs'⟩,
    third, here'', commits'', ended'', startTs''⟩ := holds
  obtain ⟨_, _, _, _, -, refines, -⟩ := exists_refines trace
  have among : ∀ id process coordinator, system.coordinators id = some (process, coordinator) →
      (id = 0 ∧ coordinator = first.2) ∨ (id = 1 ∧ coordinator = second.2) ∨
        id = 2 ∧ coordinator = third.2 := by
    intro id process coordinator there
    have below := refines.consistent.orderly.created id (by simp [there])
    rcases (by omega : id = 0 ∨ id = 1 ∨ id = 2) with rfl | rfl | rfl
    · exact .inl ⟨rfl, congrArg Prod.snd (Option.some.inj (there.symm.trans here))⟩
    · exact .inr (.inl ⟨rfl, congrArg Prod.snd (Option.some.inj (there.symm.trans here'))⟩)
    · exact .inr (.inr ⟨rfl, congrArg Prod.snd (Option.some.inj (there.symm.trans here''))⟩)
  refine ⟨system, _, rfl, rfl, snapshot_of_trace trace 25
    (fun id process coordinator there _ within => ?_) [0, 2]
    (by simp [System.startTs, here, here'', startTs, startTs'']) fun id => ?_⟩
  · rcases among id process coordinator there with ⟨-, rfl⟩ | ⟨-, rfl⟩ | ⟨-, rfl⟩
    · exact ended
    · exact absurd within (by simp [startTs'])
    · exact ended''
  · constructor
    · intro member
      rcases List.mem_pair.1 member with rfl | rfl
      · exact ⟨first.1, first.2, here, commits, by simp [startTs]⟩
      · exact ⟨third.1, third.2, here'', commits'', by simp [startTs'']⟩
    · rintro ⟨process, coordinator, there, -, within⟩
      rcases among id process coordinator there with ⟨rfl, -⟩ | ⟨-, rfl⟩ | ⟨rfl, -⟩
      · simp
      · exact absurd within (by simp [startTs'])
      · simp

end Mvtx.Cluster
