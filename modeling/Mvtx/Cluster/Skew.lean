import Mvtx.Cluster.Serializable

/-!
# Equal start timestamps

Start timestamps are seconds of a clock, so two transactions may have the same
one.  Neither then sees what the other writes, and if each reads what the other
writes there is no serial history.  In the orders in which nobody reads what has
been written before at the same timestamp there is.
-/

namespace Mvtx.Cluster

open Lib Lib.Serial Lib.Multiversion Server

/-- `SimpleTimestampGenerator::genStartTimestamp`, when the clock shows some time. -/
def genStartTimestamp (timev : Int) : Nat :=
  (timev % (uintMax + 1)).toNat

/-- The `TP2C` of a transaction has been handled, and has carried a vote for it. -/
def World.CommitHandled (world : World) (id : Nat) : Prop :=
  ∃ tid, (id, .p2c tid true) ∈ world.handled

/-- The transactions whose commit has been handled, as they stand in the log. -/
def World.commits (world : World) : List Nat :=
  (world.handled.filter fun entry => entry.2 = .p2c entry.2.tid true).map (·.1)

theorem World.commitHandled_iff {world : World} {id : Nat} :
    world.CommitHandled id ↔ id ∈ world.commits := by
  simp only [World.CommitHandled, World.commits, List.mem_map, List.mem_filter, decide_eq_true_eq]
  constructor
  · rintro ⟨tid, member⟩
    exact ⟨(id, .p2c tid true), ⟨member, rfl⟩, rfl⟩
  · rintro ⟨⟨other, request⟩, ⟨member, same⟩, rfl⟩
    exact ⟨request.tid, same ▸ member⟩

/--
The reads of some transactions have returned what they return when these
transactions run one after another in this order.
-/
def World.Serial (world : World) (moves : List Move) (order : List Nat) : Prop :=
  ∀ before id after transaction, order = before ++ id :: after →
    world.transactions id = some transaction →
    transaction.returned =
      (execute (program moves id)
        (executeAll (before.map (program moves)) fun _ => "0")).1.map
          fun answer => (answer.1, some answer.2)

/-- The transactions that have been committed have a serial history. -/
def World.Serializable (world : World) (moves : List Move) : Prop :=
  ∃ order : List Nat, order.Nodup ∧ (∀ id, id ∈ order ↔ world.CommitHandled id) ∧
    world.Serial moves order

/--
A transaction begins with an ID that no other has had, at the time that a clock
shows which does not go back.
-/
def Clocked (world : World) : Move → Prop
  | .start process tid startTs =>
      DistinctStarts world (.start process tid startTs) ∧
        ∀ id < world.begun, world.startTs id ≤ startTs
  | .read _ _ _ | .write _ _ _ | .finish _ _ | .phaseOne _ _ | .phaseTwo _ => True

instance (world : World) (move : Move) : Decidable (Clocked world move) :=
  match move with
  | .start process tid startTs => inferInstanceAs (Decidable
      (DistinctStarts world (.start process tid startTs) ∧
        ∀ id < world.begun, world.startTs id ≤ startTs))
  | .read _ _ _ | .write _ _ _ | .finish _ _ | .phaseOne _ _ | .phaseTwo _ =>
      inferInstanceAs (Decidable True)

variable {world world' : World} {moves : List Move} {move : Move} {id event : Nat}
  {transaction transaction' : Transaction} {server' : SimpleTServer} {request : Request}

/-! ## Whose commit has been handled -/

/-- The requests that have been handled agree with the transactions that commit. -/
structure Told (world : World) : Prop where
  sent : ∀ id, world.CommitHandled id →
    ∃ transaction, world.transactions id = some transaction ∧ transaction.Committed
  kept : ∀ id transaction, world.transactions id = some transaction → transaction.Committed →
    transaction.Finishing → world.server.tidToNodes transaction.tid = none →
    world.CommitHandled id ∨ 0 ∉ transaction.nodes
  wrote : ∀ id transaction key, world.transactions id = some transaction →
    transaction.pendWrites key ≠ none → 0 ∈ transaction.writeNodes

namespace Told

theorem first : Told .first where
  sent := by simp [World.CommitHandled, World.first]
  kept := by simp [World.first]
  wrote := by simp [World.first]

theorem start {process tid startTs : Nat} (told : Told world) (coherent : Coherent world)
    (stepped : world.step getNode (.start process tid startTs) = .ok world') : Told world' := by
  obtain rfl := Except.ok.inj stepped
  refine ⟨fun id sent => ?_, fun id transaction present committed => ?_,
    fun id transaction key present wrote => ?_⟩
  · obtain ⟨transaction, present, committed⟩ := told.sent id sent
    exact ⟨transaction, coherent.start_of_ne present, committed⟩
  · rcases World.start_cases present with ⟨-, rfl⟩ | old
    · exact committed.elim
    · exact told.kept id transaction old committed
  · rcases World.start_cases present with ⟨-, rfl⟩ | old
    · exact absurd rfl wrote
    · exact told.wrote id transaction key old wrote

/-- A transaction goes on. -/
theorem change (told : Told world) (coherent : Coherent world) {more : List (Nat × Request)}
    (proceeds : Proceeds world id transaction transaction' server' more)
    (stays : transaction.Committed → transaction'.Committed)
    (told' : ∀ tid, (id, .p2c tid true) ∈ more → transaction'.Committed)
    (kept : transaction'.Committed → transaction'.Finishing →
      server'.tidToNodes transaction.tid = none →
      (world.after server' id transaction' more).CommitHandled id ∨ 0 ∉ transaction'.nodes)
    (wrote : ∀ key, transaction'.pendWrites key ≠ none → 0 ∈ transaction'.writeNodes) :
    Told (world.after server' id transaction' more) where
  sent := by
    rintro other ⟨tid, member⟩
    rcases List.mem_append.1 member with old | new
    · obtain ⟨current, present, committed⟩ := told.sent other ⟨tid, old⟩
      by_cases same : other = id
      · subst same
        obtain rfl := Option.some.inj (present.symm.trans proceeds.present)
        exact ⟨transaction', World.after_self, stays committed⟩
      · exact ⟨current, World.after_of_ne present same, committed⟩
    · obtain rfl := proceeds.own _ new
      exact ⟨transaction', World.after_self, told' tid new⟩
  kept := by
    intro other current present committed finishing forgotten
    rcases World.after_cases present with ⟨rfl, rfl⟩ | ⟨differs, old⟩
    · exact kept committed finishing (proceeds.tid ▸ forgotten)
    · have distinct : current.tid ≠ transaction.tid := fun same =>
        differs (coherent.distinct _ _ _ _ old proceeds.present same)
      have forgotten' := (proceeds.touches.known _ distinct).symm.trans forgotten
      refine (told.kept other current old committed finishing forgotten').imp_left ?_
      rintro ⟨tid, member⟩
      exact ⟨tid, List.mem_append_left _ member⟩
  wrote := by
    intro other current key present wrote'
    rcases World.after_cases present with ⟨rfl, rfl⟩ | ⟨-, old⟩
    · exact wrote key wrote'
    · exact told.wrote other current key old wrote'

/-- A transaction goes on that does not commit, or not yet. -/
theorem early (told : Told world) (coherent : Coherent world) {more : List (Nat × Request)}
    (proceeds : Proceeds world id transaction transaction' server' more)
    (stays : transaction.Committed → transaction'.Committed)
    (silent : ∀ tid, (id, .p2c tid true) ∉ more) (unfinished : ¬ transaction'.Finishing)
    (wrote : ∀ key, transaction'.pendWrites key ≠ none → 0 ∈ transaction'.writeNodes) :
    Told (world.after server' id transaction' more) :=
  told.change coherent proceeds stays (fun tid member => absurd member (silent tid))
    (fun _ finishing => absurd finishing unfinished) wrote

/-- A transaction that is ready has collected the reply to its last read. -/
theorem ready (told : Told world) (coherent : Coherent world)
    (found : world.ready id = .ok transaction) : Told (world.store id transaction) := by
  obtain ⟨stage, current, proceeds, collected⟩ := proceeds_ready found
  rw [← world.after_nil]
  refine told.early coherent proceeds (fun committed => ?_) (by simp)
    (by simp [Transaction.Finishing, stage]) fun key wrote => ?_
  · rcases collected with rfl | ⟨rid, key, node, value, status, reading, -⟩
    · exact committed
    · simp [Transaction.Committed, reading] at committed
  · have wrote' := told.wrote id current key proceeds.present
    rcases collected with rfl | ⟨rid, key, node, value, status, -, -, rfl⟩
    · exact wrote' wrote
    · exact wrote' wrote

/-- Every step keeps the agreement. -/
theorem step (told : Told world) (coherent : Coherent world)
    (stepped : world.step getNode move = .ok world') : Told world' := by
  cases move with
  | start process tid startTs => exact told.start coherent stepped
  | read id key event =>
      obtain ⟨transaction, found, cases⟩ := read_cases stepped
      obtain ⟨stage, coherent'⟩ := coherent.ready found
      have told' := told.ready coherent found
      have wrote := told'.wrote id transaction
      rcases cases with ⟨value, -, rfl⟩ | ⟨server', -, -, handled, rfl⟩
      · rw [← World.store_store world id transaction, ← World.after_nil]
        exact told'.early coherent' (proceeds_of_active stage rfl rfl) (fun committed => committed)
          (by simp) (by simp [Transaction.Finishing, stage])
          fun key => wrote key (World.store_self _ _ _)
      · rw [← World.after_store world id transaction]
        exact told'.early coherent' (proceeds_serve_of_active stage rfl rfl handled rfl
          (fun _ _ _ _ => ⟨key, getNode key, rfl⟩) (by simp))
          (by simp [Transaction.Committed, stage]) (by simp) (by simp [Transaction.Finishing])
          fun key => wrote key (World.store_self _ _ _)
  | write id key value =>
      obtain ⟨transaction, server', found, handled, rfl⟩ := write_cases stepped
      obtain ⟨stage, coherent'⟩ := coherent.ready found
      rw [← World.after_store world id transaction]
      exact (told.ready coherent found).early coherent'
        (proceeds_serve_of_active stage rfl rfl handled rfl (by simp) (by simp))
        (by simp [Transaction.Committed, stage]) (by simp) (by simp [Transaction.Finishing, stage])
        fun _ _ => Finset.mem_insert_self _ _
  | finish id committing =>
      obtain ⟨transaction, found, rfl⟩ := finish_cases stepped
      obtain ⟨stage, coherent'⟩ := coherent.ready found
      have told' := told.ready coherent found
      have wrote := told'.wrote id transaction
      rw [← World.store_store world id transaction, ← World.after_nil]
      exact told'.early coherent' (proceeds_of_active stage rfl rfl)
        (by simp [Transaction.Committed, stage]) (by simp) (by simp [Transaction.Finishing])
        fun key => wrote key (World.store_self _ _ _)
  | phaseOne id unset =>
      obtain ⟨transaction, committing, remNodes, vote, present, stage, cases⟩ :=
        phaseOne_cases stepped
      have wrote := fun key => told.wrote id transaction key present
      have accounted := coherent.accounted _ _ present
      simp only [Transaction.Accounted, stage] at accounted
      rcases cases with ⟨rfl, rfl⟩ | ⟨server', nodes, vote', remain, handled, replied, rfl⟩
      · rw [← World.after_nil]
        refine told.change coherent (proceeds_store present rfl rfl (by simp [stage])
          (by simp [stage, Stage.InPhaseOne, Stage.InPhaseTwo])) (fun committed => ?_) (by simp)
          (fun _ _ forgotten => .inr fun used => ?_) wrote
        · simp only [Transaction.Committed, stage] at committed ⊢
          simp [committed]
        · rcases accounted.2 with ⟨-, knows⟩ | ⟨-, -, -, knows⟩
          · exact knows.known.2 used forgotten
          · exact knows.known.2 trivial forgotten
      · refine told.early coherent (proceeds_serve present rfl rfl (by simp [stage]) handled rfl
          (by simp) (by simp) (fun _ _ _ _ _ same refused => ?_)
          (by simp [stage, Stage.InPhaseTwo]) (by simp))
          (by simp [Transaction.Committed, stage, remain]) (by simp)
          (by simp [Transaction.Finishing]) wrote
        obtain ⟨rfl, -⟩ := by simpa using same
        obtain ⟨nodes₁, vote₁, replied₁, listed⟩ := reply_of_p1c handled
        obtain ⟨rfl, rfl⟩ : nodes = nodes₁ ∧ vote' = vote₁ := by
          simpa using replied.symm.trans replied₁
        obtain ⟨-, rfl⟩ := listed.resolve_right fun known => known.1 refused
        exact ⟨_, _, _, rfl, by simpa using remain⟩
  | phaseTwo id =>
      obtain ⟨transaction, committing, vote, remNodes, present, stage, cases⟩ :=
        phaseTwo_cases stepped
      have wrote := fun key => told.wrote id transaction key present
      have finishing : transaction.Finishing := by simp [Transaction.Finishing, stage]
      rcases cases with ⟨rfl, rfl⟩ | ⟨server', nodes, remain, handled, replied, rfl⟩
      · rw [← World.after_nil]
        refine told.change coherent (proceeds_store present rfl rfl (by simp [stage])
          (by simp [stage, Stage.InPhaseOne, Stage.InPhaseTwo]))
          (by simp [Transaction.Committed, stage]) (by simp) (fun committed _ forgotten => ?_) wrote
        refine (told.kept id transaction present ?_ finishing forgotten).imp_left ?_
        · simpa [Transaction.Committed, stage] using committed
        · rintro ⟨tid, member⟩
          exact ⟨tid, List.mem_append_left _ member⟩
      · refine told.change coherent (proceeds_serve present rfl rfl (by simp [stage]) handled rfl
          (by simp) (by simp [stage, Stage.InPhaseOne]) (by simp) (by simp)
          (fun _ _ same refused => ?_)) (by simp [Transaction.Committed, stage])
          (by simp [Transaction.Committed]) (fun committed _ _ => .inl ?_) wrote
        · obtain ⟨rfl, -⟩ := by simpa using same
          obtain ⟨nodes₁, replied₁, listed⟩ := reply_of_p2c handled
          obtain rfl : nodes = nodes₁ := by simpa using replied.symm.trans replied₁
          obtain rfl := listed refused
          exact ⟨_, _, _, rfl, by simpa using remain⟩
        · obtain rfl : vote = true := by simpa [Transaction.Committed] using committed
          exact ⟨_, List.mem_append_right _ (List.mem_singleton_self _)⟩

end Told

theorem told_of_reach (reached : Reach (World.step getNode) DistinctStarts .first world) :
    Told world := by
  induction reached with
  | refl => exact .first
  | tail earlier permitted stepped ih => exact ih.step (coherent_of_reach earlier) stepped

/-! ## Serial histories -/

/-- An order of those whose commit has been handled is one of the protocol. -/
theorem arranged_of_order {state : Protocol} {order : List Nat} (coherent : Coherent world)
    (told : Told world) (mirrors : Mirrors (program moves) world.transactions world.server state)
    (nodup : order.Nodup) (members : ∀ id, id ∈ order ↔ world.CommitHandled id)
    (sorted : order.Pairwise (world.Precedes moves)) : Arranged world moves state order where
  nodup := nodup
  members := fun id member => (mem_committed coherent).2 (told.sent id ((members id).1 member))
  complete := by
    intro id transaction record key present here installed wrote
    obtain ⟨record', here', logged⟩ := mirrors.logged id transaction present
    obtain rfl := Option.some.inj (here.symm.trans here')
    have committed := logged.decided.1 (.inr installed)
    -- What is installed has been let go of.
    have closed : ¬ (transaction.Finishing → world.server.tidToNodes transaction.tid ≠ none) :=
      fun still => by rcases logged.live still with open' | open' <;> simp [installed] at open'
    obtain ⟨finishing, forgotten⟩ := Classical.not_imp.1 closed
    rw [logged.written] at wrote
    refine (members id).2 ((told.kept id transaction present committed finishing
      (not_not.1 forgotten)).resolve_right fun unused => unused ?_)
    exact Finset.mem_union_left _ (told.wrote id transaction key present wrote)
  sorted := sorted

/--
In a run in which no abort unlocks a shared lock, take any order of the
transactions whose `TP2C` has carried a vote for them that ascends in their start
timestamps and in which, where these coincide, nobody reads what an earlier one
has written.  It is a serial history.  So there is one if no two of them have the
same start timestamp.
-/
theorem serial_of_trace (trace : Trace (World.step getNode) SoleAborts .first moves world) :
    (∀ order : List Nat, order.Nodup → (∀ id, id ∈ order ↔ world.CommitHandled id) →
      order.Pairwise (world.Precedes moves) → world.Serial moves order) ∧
    ((∀ id id', world.CommitHandled id → world.CommitHandled id' →
        world.startTs id = world.startTs id' → id = id') → world.Serializable moves) := by
  have reached := trace.reach.mono fun _ _ => SoleAborts.distinctStarts
  have coherent := coherent_of_reach reached
  have told := told_of_reach reached
  obtain ⟨state, steps, -, mirrors⟩ := exists_protocol trace
  have serial : ∀ order : List Nat, order.Nodup →
      (∀ id, id ∈ order ↔ world.CommitHandled id) →
      order.Pairwise (world.Precedes moves) → world.Serial moves order := by
    intro order nodup members sorted before id after transaction split present
    have arranged := arranged_of_order coherent told mirrors nodup members sorted
    exact arranged.returned coherent (.of_steps steps) mirrors present split
  refine ⟨serial, fun distinct => ?_⟩
  classical
  -- Those whose commit has been handled, in the order in which all that commit are listed.
  let order := world.committed.filter fun id => decide (world.CommitHandled id)
  have members : ∀ id, id ∈ order ↔ world.CommitHandled id := by
    intro id
    simp only [order, List.mem_filter, decide_eq_true_eq]
    exact ⟨And.right, fun handled =>
      ⟨(mem_committed coherent).2 (told.sent id handled), handled⟩⟩
  have sorted := (pairwise_committed world).filter fun id => decide (world.CommitHandled id)
  refine ⟨order, sorted.imp And.left, members, serial order (sorted.imp And.left) members ?_⟩
  refine sorted.imp_of_mem fun {first second} member member' both => .inl ?_
  refine lt_of_le_of_ne both.2 fun same => both.1 ?_
  exact distinct first second ((members first).1 member) ((members second).1 member') same

/--
Of two transactions at 10, one reads what the other writes; one at 20 reads what
both have written.
-/
theorem serial_of_trace_of_three :
    ∃ (moves : List Move) (world : World),
      (world.transactions 1).map (·.returned) = some [(2, some "0")] ∧
      (world.transactions 2).map (·.returned) = some [(1, some "b"), (2, some "a")] ∧
      world.Serial moves [1, 0, 2] := by
  obtain ⟨world, trace, holds⟩ := exists_trace_of_admits SoleAborts
    [.start 0 7 10, .start 1 8 10, .read 1 2 1, .write 0 2 "a", .write 1 1 "b", .finish 0 true,
      .phaseOne 0 false, .phaseOne 0 false, .phaseTwo 0, .finish 1 true, .phaseOne 1 false,
      .phaseOne 1 false, .phaseTwo 1, .start 0 9 20, .read 2 1 2, .read 2 2 3, .finish 2 true,
      .phaseOne 2 false, .phaseTwo 2]
    (fun world : World =>
      decide ((world.transactions 1).map (·.returned) = some [(2, some "0")] ∧
        (world.transactions 2).map (·.returned) = some [(1, some "b"), (2, some "a")] ∧
        world.commits = [0, 1, 2] ∧
        world.startTs 0 = 10 ∧ world.startTs 1 = 10 ∧ world.startTs 2 = 20))
    (show admits (World.step getNode) _ .first _ = true by decide)
    (show ends (World.step getNode) _ .first _ = true by decide)
  obtain ⟨first, second, commits, zero, one, two⟩ := of_decide_eq_true holds
  refine ⟨_, world, first, second, (serial_of_trace trace).1 [1, 0, 2] (by decide)
    (fun id => ?_) ?_⟩
  · rw [World.commitHandled_iff, commits]
    simp only [List.mem_cons, List.not_mem_nil, or_false]
    exact or_left_comm
  · simp [World.Precedes, zero, one, two, program, Move.operation]

/-- Each of two transactions at 10 reads what the other writes. -/
theorem not_serializable_of_equal_starts :
    ∃ (moves : List Move) (world : World),
      Trace (World.step getNode) Clocked .first moves world ∧
      world.startTs 0 = genStartTimestamp 10 ∧ world.startTs 1 = genStartTimestamp 10 ∧
      ¬ world.Serializable moves := by
  obtain ⟨world, trace, holds⟩ := exists_trace_of_admits Clocked
    [.start 0 7 (genStartTimestamp 10), .start 1 8 (genStartTimestamp 10), .read 0 1 1,
      .read 1 2 2, .write 0 2 "a", .write 1 1 "b", .finish 0 true, .phaseOne 0 false,
      .phaseOne 0 false, .phaseTwo 0, .finish 1 true, .phaseOne 1 false, .phaseOne 1 false,
      .phaseTwo 1]
    (fun world : World =>
      decide ((world.transactions 0).map (·.returned) = some [(1, some "0")] ∧
        (world.transactions 1).map (·.returned) = some [(2, some "0")] ∧
        world.commits = [0, 1] ∧ world.startTs 0 = genStartTimestamp 10 ∧
        world.startTs 1 = genStartTimestamp 10))
    (show admits (World.step getNode) _ .first _ = true by decide)
    (show ends (World.step getNode) _ .first _ = true by decide)
  obtain ⟨first, second, commits, zero, one⟩ := of_decide_eq_true holds
  obtain ⟨transaction, present, returned⟩ := Option.map_eq_some_iff.1 first
  obtain ⟨transaction', present', returned'⟩ := Option.map_eq_some_iff.1 second
  refine ⟨_, world, trace, zero, one, ?_⟩
  rintro ⟨order, nodup, members, serial⟩
  have among : order.Perm [0, 1] := (List.perm_ext_iff_of_nodup nodup (by decide)).2 fun id => by
    rw [members, World.commitHandled_iff, commits]
  have either : order = [0, 1] ∨ order = [1, 0] := by
    obtain ⟨id, id', rfl⟩ := List.length_eq_two.1 among.length_eq
    have members' : (id = 0 ∨ id = 1) ∧ (id' = 0 ∨ id' = 1) := by
      simpa [World.commitHandled_iff, commits] using
        And.intro ((members id).1 (by simp)) ((members id').1 (by simp))
    have differs : id ≠ id' := by simpa using nodup
    simp only [List.cons.injEq, and_true]
    omega
  rcases either with rfl | rfl
  · have value := serial [0] 1 [] transaction' rfl present'
    rw [returned'] at value
    exact absurd value (by decide)
  · have value := serial [1] 0 [] transaction rfl present
    rw [returned] at value
    exact absurd value (by decide)

end Mvtx.Cluster
