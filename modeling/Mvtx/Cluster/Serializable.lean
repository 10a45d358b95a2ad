import Mathlib.Data.List.Sort
import Mvtx.Cluster.Simulation

/-!
# Committed transactions are serializable

A run is taken together with its moves, since these say what each transaction
has asked for.  If no abort unlocks a read lock that is shared, the run is one of
multiversion timestamp ordering, so the transactions that commit have read what
they would have read one after another, in the order of their start timestamps.
Where two start at the same timestamp, the order must not put a reader of a key
after a writer of it.

The restriction is on aborts alone: `unlock` frees an interval even when other
transactions hold it for reading.
-/

namespace Mvtx.Cluster

open Lib Lib.Serial Lib.Multiversion Lock Server

/-! ## Runs -/

/-- What a step asks for in the name of a transaction. -/
def Move.operation (id : Nat) : Move → Option (Operation Nat String)
  | .read other key _ => if other = id then some (.read key) else none
  | .write other key value => if other = id then some (.write key value) else none
  | .start _ _ _ | .finish _ _ | .phaseOne _ _ | .phaseTwo _ => none

/-- What a transaction asks for in the course of a run. -/
def program (moves : List Move) (id : Nat) : List (Operation Nat String) :=
  moves.filterMap (Move.operation id)

/-- The next request of a transaction is a `TP2C` that aborts it. -/
def Transaction.Aborts (transaction : Transaction) : Prop :=
  match transaction.stage with
  | .phaseTwo _ vote remNodes => vote = false ∧ remNodes ≠ ∅
  | .active | .reading _ _ _ | .phaseOne _ _ _ | .ended _ _ => False

instance (transaction : Transaction) : Decidable transaction.Aborts :=
  match transaction with
  | ⟨_, _, _, _, _, _, .phaseTwo _ vote remNodes⟩ =>
      inferInstanceAs (Decidable (vote = false ∧ remNodes ≠ ∅))
  | ⟨_, _, _, _, _, _, .active⟩ | ⟨_, _, _, _, _, _, .reading _ _ _⟩
  | ⟨_, _, _, _, _, _, .phaseOne _ _ _⟩ | ⟨_, _, _, _, _, _, .ended _ _⟩ =>
      inferInstanceAs (Decidable False)

/-- The next request of a transaction is a `TP2C` that commits it. -/
def Transaction.CommitsNext (transaction : Transaction) : Prop :=
  match transaction.stage with
  | .phaseTwo _ vote remNodes => vote = true ∧ remNodes ≠ ∅
  | .active | .reading _ _ _ | .phaseOne _ _ _ | .ended _ _ => False

instance (transaction : Transaction) : Decidable transaction.CommitsNext :=
  match transaction with
  | ⟨_, _, _, _, _, _, .phaseTwo _ vote remNodes⟩ =>
      inferInstanceAs (Decidable (vote = true ∧ remNodes ≠ ∅))
  | ⟨_, _, _, _, _, _, .active⟩ | ⟨_, _, _, _, _, _, .reading _ _ _⟩
  | ⟨_, _, _, _, _, _, .phaseOne _ _ _⟩ | ⟨_, _, _, _, _, _, .ended _ _⟩ =>
      inferInstanceAs (Decidable False)

/--
A transaction begins with an ID that no other has had, and an abort reaches the
server only while its transaction shares no lock.
-/
def SoleAborts (world : World) : Move → Prop
  | .start process tid startTs => DistinctStarts world (.start process tid startTs)
  | .phaseTwo id => ∀ transaction ∈ world.transactions id, transaction.Aborts →
      world.server.lockManager.SoleHolder transaction.tid
  | _ => True

instance (world : World) (move : Move) : Decidable (SoleAborts world move) :=
  match move with
  | .start process tid startTs =>
      inferInstanceAs (Decidable (DistinctStarts world (.start process tid startTs)))
  | .phaseTwo id => inferInstanceAs (Decidable (∀ transaction ∈ world.transactions id,
      transaction.Aborts → world.server.lockManager.SoleHolder transaction.tid))
  | .read _ _ _ | .write _ _ _ | .finish _ _ | .phaseOne _ _ => inferInstanceAs (Decidable True)

theorem SoleAborts.distinctStarts {world : World} {move : Move} (sole : SoleAborts world move) :
    DistinctStarts world move := by
  cases move with
  | start => exact sole
  | read | write | finish | phaseOne | phaseTwo => trivial

/-- Besides, its start timestamp is one that no other transaction has had. -/
def Unshared (world : World) : Move → Prop
  | .start process tid startTs =>
      DistinctStarts world (.start process tid startTs) ∧
        ∀ id < world.begun, (world.transactions id).map (·.startTs) ≠ some startTs
  | .phaseTwo id => ∀ transaction ∈ world.transactions id, transaction.Aborts →
      world.server.lockManager.SoleHolder transaction.tid
  | _ => True

instance (world : World) (move : Move) : Decidable (Unshared world move) :=
  match move with
  | .start process tid startTs => inferInstanceAs (Decidable
      (DistinctStarts world (.start process tid startTs) ∧
        ∀ id < world.begun, (world.transactions id).map (·.startTs) ≠ some startTs))
  | .phaseTwo id => inferInstanceAs (Decidable (∀ transaction ∈ world.transactions id,
      transaction.Aborts → world.server.lockManager.SoleHolder transaction.tid))
  | .read _ _ _ | .write _ _ _ | .finish _ _ | .phaseOne _ _ => inferInstanceAs (Decidable True)

theorem Unshared.soleAborts {world : World} {move : Move} (unshared : Unshared world move) :
    SoleAborts world move := by
  cases move with
  | start => exact unshared.1
  | phaseTwo => exact unshared
  | read | write | finish | phaseOne => trivial

theorem Unshared.distinctStarts {world : World} {move : Move} (unshared : Unshared world move) :
    DistinctStarts world move :=
  unshared.soleAborts.distinctStarts

/-- The start timestamp of a transaction. -/
def World.startTs (world : World) (id : Nat) : Nat :=
  (world.transactions id).elim 0 (·.startTs)

/-- The transactions that commit, in the order of their start timestamps. -/
def World.committed (world : World) : List Nat :=
  ((List.range world.begun).filter fun id =>
    (world.transactions id).any fun transaction => decide transaction.Committed).insertionSort
      fun first second => world.startTs first ≤ world.startTs second

variable {world world' : World} {moves : List Move} {move : Move} {id : Nat}
  {transaction : Transaction} {state : Protocol}

theorem program_append (moves : List Move) (move : Move) (id : Nat) :
    program (moves ++ [move]) id = program moves id ++ (move.operation id).toList := by
  rw [program, List.filterMap_append, program]
  cases operation : move.operation id <;> simp [operation]

/-- A step without an operation. -/
theorem program_of_silent (silent : ∀ id, move.operation id = none) :
    program (moves ++ [move]) = program moves := by
  funext id
  simp [program_append, silent]

/-- A step of one transaction. -/
theorem program_of_operation {operation : Operation Nat String}
    (own : ∀ other, move.operation other = if id = other then some operation else none) :
    program (moves ++ [move]) =
      Function.update (program moves) id (program moves id ++ [operation]) := by
  funext other
  by_cases same : other = id
  · subst same
    simp [program_append, own]
  · simp [program_append, own, same, Ne.symm same]

/-! ## The run of the protocol -/

/-- A step changes one transaction, the one that asks for something if any does. -/
theorem exists_update {mapper : Nat → Nat} (stepped : world.step mapper move = .ok world') :
    ∃ id transaction,
      world'.transactions = Function.update world.transactions id (some transaction) ∧
      ∀ other, move.operation other ≠ none → other = id := by
  cases move with
  | start =>
      obtain rfl := Except.ok.inj stepped
      exact ⟨_, _, rfl, by simp [Move.operation]⟩
  | read id key event =>
      obtain ⟨transaction, -, ⟨value, -, rfl⟩ | ⟨server', -, -, -, rfl⟩⟩ := read_cases stepped
      · exact ⟨id, _, rfl, by simp +contextual [Move.operation]⟩
      · exact ⟨id, _, rfl, by simp +contextual [Move.operation]⟩
  | write id key value =>
      obtain ⟨transaction, server', -, -, rfl⟩ := write_cases stepped
      exact ⟨id, _, rfl, by simp +contextual [Move.operation]⟩
  | finish id committing =>
      obtain ⟨transaction, -, rfl⟩ := finish_cases stepped
      exact ⟨id, _, rfl, by simp [Move.operation]⟩
  | phaseOne id unset =>
      obtain ⟨transaction, committing, remNodes, vote, -, -, ⟨-, rfl⟩ |
        ⟨server', nodes, vote', -, -, -, rfl⟩⟩ := phaseOne_cases stepped
      · exact ⟨id, _, rfl, by simp [Move.operation]⟩
      · exact ⟨id, _, rfl, by simp [Move.operation]⟩
  | phaseTwo id =>
      obtain ⟨transaction, committing, vote, remNodes, -, -, ⟨-, rfl⟩ |
        ⟨server', nodes, -, -, -, rfl⟩⟩ := phaseTwo_cases stepped
      · exact ⟨id, _, rfl, by simp [Move.operation]⟩
      · exact ⟨id, _, rfl, by simp [Move.operation]⟩

/-- A step begins a transaction, or one goes on and keeps its start timestamp. -/
theorem exists_goesOn (stepped : world.step getNode move = .ok world') :
    ∃ id transaction,
      world'.transactions = Function.update world.transactions id (some transaction) ∧
      (id = world.begun ∧ (∃ process tid startTs, move = .start process tid startTs ∧
          transaction = .new tid startTs) ∨
        ∃ current, world.transactions id = some current ∧
          transaction.startTs = current.startTs ∧
          transaction.writeNodes ⊆ insert 0 current.writeNodes) := by
  have ready : ∀ {id transaction}, world.ready id = .ok transaction →
      ∃ current, world.transactions id = some current ∧
        transaction.startTs = current.startTs ∧ transaction.writeNodes = current.writeNodes := by
    intro id transaction found
    obtain ⟨-, current, proceeds, collected⟩ := proceeds_ready found
    refine ⟨current, proceeds.present, proceeds.startTs, ?_⟩
    rcases collected with rfl | ⟨_, _, _, _, _, -, -, rfl⟩ <;> rfl
  cases move with
  | start process tid startTs =>
      obtain rfl := Except.ok.inj stepped
      exact ⟨_, _, rfl, .inl ⟨rfl, process, tid, startTs, rfl, rfl⟩⟩
  | read id key event =>
      obtain ⟨transaction, found, ⟨value, -, rfl⟩ | ⟨server', -, -, -, rfl⟩⟩ :=
        read_cases stepped <;>
      obtain ⟨current, present, startTs, nodes⟩ := ready found <;>
      exact ⟨id, _, rfl, .inr ⟨current, present, startTs, nodes ▸ Finset.subset_insert ..⟩⟩
  | write id key value =>
      obtain ⟨transaction, server', found, -, rfl⟩ := write_cases stepped
      obtain ⟨current, present, startTs, nodes⟩ := ready found
      exact ⟨id, _, rfl, .inr ⟨current, present, startTs, nodes ▸ subset_rfl⟩⟩
  | finish id committing =>
      obtain ⟨transaction, found, rfl⟩ := finish_cases stepped
      obtain ⟨current, present, startTs, nodes⟩ := ready found
      exact ⟨id, _, rfl, .inr ⟨current, present, startTs, nodes ▸ Finset.subset_insert ..⟩⟩
  | phaseOne id unset =>
      obtain ⟨transaction, committing, remNodes, vote, present, -, ⟨-, rfl⟩ |
        ⟨server', nodes, vote', -, -, -, rfl⟩⟩ := phaseOne_cases stepped <;>
      exact ⟨id, _, rfl, .inr ⟨transaction, present, rfl, Finset.subset_insert ..⟩⟩
  | phaseTwo id =>
      obtain ⟨transaction, committing, vote, remNodes, present, -, ⟨-, rfl⟩ |
        ⟨server', nodes, -, -, -, rfl⟩⟩ := phaseTwo_cases stepped <;>
      exact ⟨id, _, rfl, .inr ⟨transaction, present, rfl, Finset.subset_insert ..⟩⟩

/-- No two transactions have the same start timestamp. -/
def World.Apart (world : World) : Prop :=
  ∀ id id' transaction transaction', world.transactions id = some transaction →
    world.transactions id' = some transaction' → transaction.startTs = transaction'.startTs →
    id = id'

theorem apart_of_reach (reached : Reach (World.step getNode) Unshared .first world) :
    world.Apart := by
  induction reached with
  | refl => simp [World.Apart, World.first]
  | @tail world world' move earlier unshared stepped ih =>
      have coherent := coherent_of_reach (earlier.mono fun _ _ => Unshared.distinctStarts)
      obtain ⟨owner, changed, transactions, cases⟩ := exists_goesOn stepped
      -- What has changed keeps its start timestamp, or is new and has one of its own.
      have others : ∀ id transaction, id ≠ owner → world.transactions id = some transaction →
          transaction.startTs ≠ changed.startTs := by
        intro id transaction differs there same
        rcases cases with ⟨-, process, tid, startTs, rfl, rfl⟩ | ⟨current, here, startTs, -⟩
        · exact unshared.2 id (coherent.begun id (by simp [there])) (by simp [there, same,
            Transaction.new])
        · exact differs (ih id owner transaction current there here (same.trans startTs))
      intro id id' transaction transaction' there there' same
      rw [transactions] at there there'
      by_cases first : id = owner <;> by_cases second : id' = owner
      · exact first.trans second.symm
      · rw [first, Function.update_self, Option.some.injEq] at there
        rw [Function.update_of_ne second] at there'
        exact absurd (there ▸ same).symm (others id' transaction' second there')
      · rw [second, Function.update_self, Option.some.injEq] at there'
        rw [Function.update_of_ne first] at there
        exact absurd (there' ▸ same) (others id transaction first there)
      · rw [Function.update_of_ne first] at there
        rw [Function.update_of_ne second] at there'
        exact ih id id' transaction transaction' there there' same

/-- Only a transaction that has begun asks for anything. -/
theorem program_eq_nil {mapper : Nat → Nat} {allowed : World → Move → Prop}
    (trace : Trace (World.step mapper) allowed .first moves world)
    (absent : world.transactions id = none) : program moves id = [] := by
  induction trace with
  | refl => rfl
  | tail earlier permitted stepped ih =>
      obtain ⟨owner, transaction, transactions, asks⟩ := exists_update stepped
      have differs : id ≠ owner := by
        rintro rfl
        simp [transactions] at absent
      rw [transactions, Function.update_of_ne differs] at absent
      have silent := not_not.1 fun asked => differs (asks id asked)
      rw [program_append, ih absent, silent]
      rfl

/-- A step that is allowed is matched by steps of the protocol. -/
theorem matched_of_step (sound : Sound (fun _ => "0") state) (coherent : Coherent world)
    (mirrors : Mirrors (program moves) world.transactions world.server state)
    (idle : program moves world.begun = []) (sole : SoleAborts world move)
    (stepped : world.step getNode move = .ok world') :
    Matched (program (moves ++ [move])) state world world' := by
  cases move with
  | start process tid startTs =>
      rw [program_of_silent fun _ => rfl]
      exact mirrors.start coherent sole.1 sole.2.1 idle stepped
  | read id key event =>
      rw [program_of_operation fun _ => rfl]
      exact mirrors.read coherent stepped
  | write id key value =>
      rw [program_of_operation fun _ => rfl]
      exact mirrors.write coherent stepped
  | finish id committing =>
      rw [program_of_silent fun _ => rfl]
      exact mirrors.finish coherent stepped
  | phaseOne id unset =>
      rw [program_of_silent fun _ => rfl]
      obtain ⟨transaction, committing, remNodes, vote, present, stage, ⟨rfl, rfl⟩ |
        ⟨server', nodes, vote', remain, handled, replied, rfl⟩⟩ := phaseOne_cases stepped
      · exact ⟨state, .refl, fun exact => exact, mirrors.votes coherent present stage⟩
      · exact mirrors.phaseOne coherent present stage remain handled replied _
  | phaseTwo id =>
      rw [program_of_silent fun _ => rfl]
      obtain ⟨transaction, committing, vote, remNodes, present, stage, ⟨rfl, rfl⟩ |
        ⟨server', nodes, remain, handled, replied, rfl⟩⟩ := phaseTwo_cases stepped
      · exact ⟨state, .refl, fun exact => exact, mirrors.ended coherent present stage⟩
      · refine mirrors.phaseTwo coherent sound present stage (fun aborted => ?_) handled _
        exact sole transaction present (by simp [Transaction.Aborts, stage, aborted, remain])

theorem Mirrors.first : Mirrors (program []) World.first.transactions World.first.server
    (State.initial fun _ => "0") where
  realizes := .empty fun _ => "0"
  versions := by
    intro key ts value known
    by_cases zero : ts = 0
    · simpa [State.initial, zero, SimpleTServer.get, World.first] using known
    · simp [SimpleTServer.get, World.first, SimpleTServer.initial, zero] at known
  distinct := by simp [World.first]
  known := by simp [State.initial]
  logged := by simp [World.first]
  asked := by simp [World.first]
  pending := by simp [World.first, SimpleTServer.initial]

/-- Every run is one of the protocol. -/
theorem exists_protocol (trace : Trace (World.step getNode) SoleAborts .first moves world) :
    ∃ state, Relation.ReflTransGen Step (State.initial fun _ => "0") state ∧
      Exact world.server state ∧
      Mirrors (program moves) world.transactions world.server state := by
  induction trace with
  | refl =>
      refine ⟨_, .refl, fun key ts => ?_, .first⟩
      by_cases zero : ts = 0 <;>
        simp [State.initial, zero, SimpleTServer.get, World.first, SimpleTServer.initial]
  | tail earlier sole stepped ih =>
      obtain ⟨state, steps, exact', mirrors⟩ := ih
      have coherent := coherent_of_reach (earlier.reach.mono fun _ _ => SoleAborts.distinctStarts)
      have idle := program_eq_nil earlier (not_not.1 fun some' =>
        Nat.lt_irrefl _ (coherent.begun _ some'))
      obtain ⟨state', steps', stays, mirrors'⟩ :=
        matched_of_step (Sound.of_steps steps) coherent mirrors idle sole stepped
      exact ⟨state', steps.trans steps', stays exact', mirrors'⟩

/-! ## The serial history -/

theorem mem_committed (coherent : Coherent world) :
    id ∈ world.committed ↔
      ∃ transaction, world.transactions id = some transaction ∧ transaction.Committed := by
  simp only [World.committed, List.mem_insertionSort, List.mem_filter, List.mem_range,
    Option.any_eq_true, decide_eq_true_eq]
  exact ⟨fun both => both.2, fun holds => ⟨coherent.begun id (by
    obtain ⟨transaction, present, -⟩ := holds
    simp [present]), holds⟩⟩

theorem pairwise_committed (world : World) :
    world.committed.Pairwise fun first second =>
      first ≠ second ∧ world.startTs first ≤ world.startTs second := by
  have total : Std.Total fun first second => world.startTs first ≤ world.startTs second :=
    ⟨fun first second => le_total ..⟩
  have trans : IsTrans Nat fun first second => world.startTs first ≤ world.startTs second :=
    ⟨fun _ _ _ => le_trans⟩
  refine List.Pairwise.and ?_ (List.pairwise_insertionSort _ _)
  exact (List.perm_insertionSort _ _).nodup_iff.2 (List.nodup_range.filter _)

/-- The transaction ID of a transaction. -/
def World.tid (world : World) (id : Nat) : Nat :=
  (world.transactions id).elim 0 (·.tid)

/-- The transactions that commit have different start timestamps if all have. -/
theorem startTs_committed (coherent : Coherent world) (apart : world.Apart) :
    world.committed.Pairwise fun first second => world.startTs first < world.startTs second := by
  refine (pairwise_committed world).imp_of_mem fun {first second} member member' both => ?_
  obtain ⟨transaction, present, -⟩ := (mem_committed coherent).1 member
  obtain ⟨transaction', present', -⟩ := (mem_committed coherent).1 member'
  refine lt_of_le_of_ne both.2 fun same => both.1 (apart _ _ _ _ present present' ?_)
  simpa [World.startTs, present, present'] using same

/--
One transaction may come before another: it starts earlier, or at the same
timestamp and writes nothing that the other reads.
-/
def World.Precedes (world : World) (moves : List Move) (first second : Nat) : Prop :=
  world.startTs first < world.startTs second ∨ world.startTs first = world.startTs second ∧
    ∀ key value, .write key value ∈ program moves first → .read key ∉ program moves second

/-- An order of transactions that commit, all whose writes are installed among them. -/
structure Arranged (world : World) (moves : List Move) (state : Protocol) (order : List Nat) :
    Prop where
  nodup : order.Nodup
  members : ∀ id ∈ order, id ∈ world.committed
  complete : ∀ id transaction record key, world.transactions id = some transaction →
    state.records transaction.tid = some record → record.phase = .installed →
    lastWritten record.log key ≠ none → id ∈ order
  sorted : order.Pairwise (world.Precedes moves)

/-- The transactions that commit can be put in the order of different start timestamps. -/
theorem arranged_committed (coherent : Coherent world) (apart : world.Apart)
    (mirrors : Mirrors (program moves) world.transactions world.server state) :
    Arranged world moves state world.committed where
  nodup := (pairwise_committed world).imp fun both => both.1
  members := fun _ member => member
  complete := by
    intro id transaction record key present here installed wrote
    obtain ⟨record', here', logged⟩ := mirrors.logged id transaction present
    obtain rfl := Option.some.inj (here.symm.trans here')
    exact (mem_committed coherent).2 ⟨transaction, present, logged.decided.1 (.inr installed)⟩
  sorted := (startTs_committed coherent apart).imp .inl

/-- A transaction that commits has a log of its own program. -/
theorem log_committed (coherent : Coherent world)
    (mirrors : Mirrors (program moves) world.transactions world.server state)
    (member : id ∈ world.committed) :
    program moves id = (state.log (world.tid id)).map Entry.operation ∧
      ∀ transaction, world.transactions id = some transaction → transaction.returned =
        ((state.log (world.tid id)).filterMap Entry.answer).map
          fun answer => (answer.1, some answer.2) := by
  obtain ⟨transaction, present, committed⟩ := (mem_committed coherent).1 member
  obtain ⟨record, here, logged⟩ := mirrors.logged id transaction present
  have idle : ∀ rid key node, transaction.stage ≠ .reading rid key node := by
    intro rid key node stage
    simp [Transaction.Committed, stage] at committed
  have log : state.log (world.tid id) = record.log := by
    simp only [World.tid, present, Option.elim_some, State.log_eq here]
  rw [log]
  refine ⟨?_, fun other there => ?_⟩
  · have program_eq := logged.program
    rwa [Transaction.waitsFor_of_idle idle, List.append_nil] at program_eq
  · obtain rfl := Option.some.inj (present.symm.trans there)
    rw [← Transaction.collected_of_idle idle]
    exact logged.answers

/-- The programs of transactions that commit leave what their logs leave. -/
theorem executeAll_committed (coherent : Coherent world)
    (mirrors : Mirrors (program moves) world.transactions world.server state) {ids : List Nat}
    {contents : Nat → String} (members : ∀ id ∈ ids, id ∈ world.committed)
    (legal : Legal (ids.map fun id => state.log (world.tid id)).flatten contents) :
    executeAll (ids.map (program moves)) contents =
      replay (ids.map fun id => state.log (world.tid id)).flatten contents := by
  rw [← executeAll_of_legal legal, List.map_map]
  congr 1
  exact List.map_congr_left fun id member => (log_committed coherent mirrors (members id member)).1

namespace Arranged

variable {order : List Nat}

/-- The order of the transactions is one of the protocol. -/
theorem schedule (arranged : Arranged world moves state order) (coherent : Coherent world)
    (mirrors : Mirrors (program moves) world.transactions world.server state) :
    Schedule state (order.map world.tid) := by
  have known : ∀ id ∈ order, ∃ transaction record, world.transactions id = some transaction ∧
      state.records (world.tid id) = some record ∧ record.start = world.startTs id ∧
      record.Decided ∧ program moves id = record.log.map Entry.operation := by
    intro id member
    have committed := arranged.members id member
    obtain ⟨transaction, present, decided⟩ := (mem_committed coherent).1 committed
    obtain ⟨record, here, logged⟩ := mirrors.logged id transaction present
    have here' : state.records (world.tid id) = some record := by
      simpa [World.tid, present] using here
    refine ⟨transaction, record, present, here', ?_, logged.decided.2 decided, ?_⟩
    · simp [World.startTs, present, logged.start]
    · rw [(log_committed coherent mirrors committed).1, State.log_eq here']
  refine
    { nodup := (List.nodup_map_iff_inj_on arranged.nodup).2 fun first member second member' same => ?_
      decided := fun tid member => ?_
      complete := fun tid record key here installed wrote => ?_
      sorted := ?_ }
  · obtain ⟨transaction, -, present, -⟩ := known first member
    obtain ⟨transaction', -, present', -⟩ := known second member'
    refine mirrors.distinct _ _ _ _ present present' ?_
    simpa [World.tid, present, present'] using same
  · obtain ⟨id, inOrder, rfl⟩ := List.mem_map.1 member
    obtain ⟨-, record, -, here, -, decided, -⟩ := known id inOrder
    exact ⟨record, here, decided⟩
  · obtain ⟨id, transaction, present, rfl⟩ := mirrors.known tid (by simp [here])
    refine List.mem_map.2
      ⟨id, arranged.complete id transaction record key present here installed wrote, ?_⟩
    simp [World.tid, present]
  · rw [List.pairwise_map]
    refine arranged.sorted.imp_of_mem
      fun {first second} member member' precedes record record' here here' => ?_
    obtain ⟨-, known₁, -, there, start, -, program₁⟩ := known first member
    obtain ⟨-, known₂, -, there', start', -, program₂⟩ := known second member'
    obtain rfl := Option.some.inj (here.symm.trans there)
    obtain rfl := Option.some.inj (here'.symm.trans there')
    unfold Record.Precedes
    rw [start, start']
    refine precedes.imp_right fun same => ⟨same.1, fun key value read => ?_⟩
    -- What the log of the one reads is not written in the log of the other.
    by_contra wrote
    obtain ⟨⟨other, value'⟩, written, is⟩ := List.mem_map.1 (lastWritten_ne_none.1 wrote)
    obtain rfl : other = key := is
    obtain ⟨entry, member, is⟩ := List.mem_filterMap.1 written
    refine same.2 other value' ?_ ?_
    · rw [program₁]
      refine List.mem_map.2 ⟨entry, member, ?_⟩
      cases entry with
      | read => simp [Entry.written] at is
      | write =>
          obtain ⟨rfl, rfl⟩ := Prod.mk.inj (Option.some.inj is)
          rfl
    · rw [program₂]
      exact List.mem_map.2 ⟨_, read, rfl⟩

theorem legal (arranged : Arranged world moves state order) (coherent : Coherent world)
    (sound : Sound (fun _ => "0") state)
    (mirrors : Mirrors (program moves) world.transactions world.server state) :
    Legal (order.map fun id => state.log (world.tid id)).flatten fun _ => "0" := by
  have legal := sound.legal (arranged.schedule coherent mirrors)
  rwa [List.map_map] at legal

/--
The reads of a transaction have returned what they return when the transactions
run one after another in this order.
-/
theorem returned (arranged : Arranged world moves state order) (coherent : Coherent world)
    (sound : Sound (fun _ => "0") state)
    (mirrors : Mirrors (program moves) world.transactions world.server state)
    (present : world.transactions id = some transaction) {before after : List Nat}
    (split : order = before ++ id :: after) :
    transaction.returned =
      (execute (program moves id)
        (executeAll (before.map (program moves)) fun _ => "0")).1.map
          fun answer => (answer.1, some answer.2) := by
  have legal := arranged.legal coherent sound mirrors
  rw [split, List.map_append, List.map_cons, List.flatten_append, legal_append,
    List.flatten_cons, legal_append] at legal
  have members : ∀ other ∈ before ++ id :: after, other ∈ world.committed :=
    fun other member => arranged.members other (split ▸ member)
  obtain ⟨program_eq, returned⟩ := log_committed coherent mirrors
    (members id (List.mem_append_right _ List.mem_cons_self))
  rw [executeAll_committed coherent mirrors
    (fun other earlier => members other (List.mem_append_left _ earlier)) legal.1, program_eq,
    execute_of_legal legal.2.1]
  exact returned transaction present

end Arranged

/--
In every run in which no abort unlocks a shared lock, the reads of a transaction
that commits have returned what they return when the transactions that commit
run one after another, in the order of their start timestamps.
-/
theorem returned_of_committed
    (trace : Trace (World.step getNode) Unshared .first moves world)
    (present : world.transactions id = some transaction) {before after : List Nat}
    (order : world.committed = before ++ id :: after) :
    transaction.returned =
      (execute (program moves id)
        (executeAll (before.map (program moves)) fun _ => "0")).1.map
          fun answer => (answer.1, some answer.2) := by
  have coherent := coherent_of_reach (trace.reach.mono fun _ _ => Unshared.distinctStarts)
  obtain ⟨state, steps, -, mirrors⟩ := exists_protocol (trace.mono fun _ _ => Unshared.soleAborts)
  have arranged := arranged_committed coherent (apart_of_reach trace.reach) mirrors
  exact arranged.returned coherent (.of_steps steps) mirrors present order

end Mvtx.Cluster
