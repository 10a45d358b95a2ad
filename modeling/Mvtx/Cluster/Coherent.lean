import Mvtx.Cluster.Entries

/-!
# The steps of the world

Every step keeps the server and the transactions in agreement, if transactions
begin with an ID that no other has had and with a start timestamp that leaves
room below and above it.
-/

namespace Mvtx.Cluster

open Lib Server

variable {world world' : World} {id event : Nat} {unset : Bool} {request : Request}
  {transaction transaction' : Transaction} {server server' : SimpleTServer} {mapper : Nat → Nat}
  {rid : Nat}

/-! ## The steps -/

namespace Coherent

/-- A transaction goes on without a request. -/
theorem store (coherent : Coherent world)
    (proceeds : Proceeds world id transaction transaction' world.server [])
    (accounted : transaction'.Accounted world.server world.handled id) :
    Coherent (world.store id transaction') := by
  rw [← world.after_nil]
  exact coherent.change proceeds (by rwa [List.append_nil]) coherent.wakeful

/-- A transaction goes on with a request. -/
theorem serve (coherent : Coherent world)
    (proceeds : Proceeds world id transaction transaction' server' [(id, request)])
    (handled : Handled mapper world.server (world.sent + 1) event unset request server')
    (new : ∀ tid startTs key, request = .read tid startTs key →
      world.server.readEvents event = none)
    (proper : world.server.Proper request)
    (accounted : transaction'.Accounted server' (world.handled ++ [(id, request)]) id) :
    Coherent (world.after server' id transaction' [(id, request)]) :=
  coherent.change proceeds accounted
    (coherent.wakeful.handled handled new coherent.unsent coherent.fresh proper)

/-- A transaction that is ready has collected the reply to its last read. -/
theorem ready (coherent : Coherent world) (found : world.ready id = .ok transaction) :
    transaction.stage = .active ∧ Coherent (world.store id transaction) := by
  obtain ⟨stage, current, proceeds, collected⟩ := proceeds_ready found
  refine ⟨stage, coherent.store proceeds ?_⟩
  have accounted := coherent.accounted _ _ proceeds.present
  rcases collected with rfl | ⟨rid, key, node, value, status, reading, -, rfl⟩
  · exact accounted
  · simp only [Transaction.Accounted, reading] at accounted
    obtain ⟨rfl, open', knows⟩ := accounted
    exact ⟨open', knows.congr (by simp [Transaction.nodes]) Iff.rfl Iff.rfl Iff.rfl⟩

theorem start {process tid startTs : Nat} (coherent : Coherent world)
    (distinct : ∀ id < world.begun, (world.transactions id).map (·.tid) ≠ some tid)
    (timely : 1 ≤ startTs ∧ startTs < uintMax)
    (stepped : world.step mapper (.start process tid startTs) = .ok world') :
    Coherent world' := by
  have tracked := coherent.toTracked.start stepped
  obtain rfl := Except.ok.inj stepped
  have fresh : ∀ id transaction, world.transactions id = some transaction →
      transaction.tid ≠ tid := by
    intro id transaction present same
    exact distinct id (coherent.begun id (by simp [present])) (by simp [present, same])
  refine
    { toTracked := tracked
      nodes := coherent.nodes
      accounted := fun id transaction present => ?_
      timely := fun id transaction present => ?_
      unknown := fun other nobody => ?_
      distinct := fun first second transaction transaction' here here' same => ?_
      wakeful := coherent.wakeful }
  · rcases World.start_cases present with ⟨rfl, rfl⟩ | old
    · refine ⟨fun ⟨tid', vote, member⟩ => ?_, ?_⟩
      · exact Nat.lt_irrefl _ (coherent.owned _ member)
      · refine (coherent.unknown tid fresh).congr ?_ ?_ ?_ Iff.rfl <;>
          simp [Transaction.new, Transaction.nodes]
    · exact coherent.accounted id transaction old
  · rcases World.start_cases present with ⟨rfl, rfl⟩ | old
    · exact timely
    · exact coherent.timely id transaction old
  · exact coherent.unknown other fun id transaction old => nobody id transaction
      (coherent.start_of_ne old)
  · rcases World.start_cases here with ⟨rfl, rfl⟩ | old <;>
      rcases World.start_cases here' with ⟨rfl, rfl⟩ | old'
    · rfl
    · exact absurd same.symm (fresh _ _ old')
    · exact absurd same (fresh _ _ old)
    · exact coherent.distinct _ _ _ _ old old' same

theorem read {key : Nat} (coherent : Coherent world)
    (stepped : world.step mapper (.read id key event) = .ok world') : Coherent world' := by
  obtain ⟨transaction, found, cases⟩ := read_cases stepped
  obtain ⟨stage, coherent'⟩ := coherent.ready found
  have accounted := coherent'.accounted _ _ (World.store_self _ _ _)
  simp only [Transaction.Accounted, stage] at accounted
  obtain ⟨open', knows⟩ := accounted
  rcases cases with ⟨value, -, rfl⟩ | ⟨server', -, new, handled, rfl⟩
  · rw [← World.store_store world id transaction]
    refine coherent'.store (proceeds_of_active stage rfl rfl) ?_
    simp only [Transaction.Accounted, stage]
    exact ⟨open', knows⟩
  · obtain ⟨served', knows'⟩ := knows.read handled
    have zero : mapper key = 0 := by
      simpa [coherent'.nodes] using served'
    have timely := coherent'.timely _ _ (World.store_self _ _ _)
    rw [← World.after_store world id transaction]
    refine coherent'.serve (proceeds_serve_of_active stage rfl rfl handled rfl
      (fun _ _ _ _ => ⟨key, mapper key, rfl⟩) (by simp)) handled (fun _ _ _ _ => new)
      ⟨timely.1, timely.2.le⟩ ⟨zero, ?_, knows'⟩
    rwa [phaseTwoHandled_append (by simp)]

/-- A call of `write`. -/
theorem write {key : Nat} {value : String} (coherent : Coherent world)
    (stepped : world.step mapper (.write id key value) = .ok world') : Coherent world' := by
  obtain ⟨transaction, server', found, handled, rfl⟩ := write_cases stepped
  obtain ⟨stage, coherent'⟩ := coherent.ready found
  have accounted := coherent'.accounted _ _ (World.store_self _ _ _)
  simp only [Transaction.Accounted, stage] at accounted
  obtain ⟨open', knows⟩ := accounted
  have served : mapper key ∈ (world.store id transaction).server.nodes ↔ 0 = mapper key := by
    simp [coherent'.nodes, eq_comm]
  rw [← World.after_store world id transaction]
  refine coherent'.serve (proceeds_serve_of_active stage rfl rfl handled rfl (by simp) (by simp))
    handled (by simp) trivial ?_
  simp only [Transaction.Accounted, stage]
  refine ⟨?_, (knows.write handled).congr ?_ ?_ ?_ Iff.rfl⟩
  · rwa [phaseTwoHandled_append (by simp)]
  · simp [served, Transaction.nodes]
  · simp [served]
  · simp [served]

/-- `commit` or `abort` is called. -/
theorem finish {committing : Bool} (coherent : Coherent world)
    (stepped : world.step mapper (.finish id committing) = .ok world') : Coherent world' := by
  obtain ⟨transaction, found, rfl⟩ := finish_cases stepped
  obtain ⟨stage, coherent'⟩ := coherent.ready found
  have accounted := coherent'.accounted _ _ (World.store_self _ _ _)
  simp only [Transaction.Accounted, stage] at accounted
  obtain ⟨open', knows⟩ := accounted
  rw [← World.store_store world id transaction]
  exact coherent'.store (proceeds_of_active stage rfl rfl) ⟨open', .inl ⟨rfl, knows⟩⟩

/-- The loop for `TP1C`. -/
theorem phaseOne (coherent : Coherent world)
    (stepped : world.step mapper (.phaseOne id unset) = .ok world') : Coherent world' := by
  obtain ⟨transaction, committing, remNodes, vote, present, stage, cases⟩ :=
    phaseOne_cases stepped
  have accounted := coherent.accounted _ _ present
  simp only [Transaction.Accounted, stage] at accounted
  obtain ⟨open', stands⟩ := accounted
  rcases cases with ⟨none', rfl⟩ | ⟨server', nodes, vote', remain, handled, replied, rfl⟩
  · refine coherent.store (proceeds_store present rfl rfl (by simp [stage])
      (by simp [stage, Stage.InPhaseOne, Stage.InPhaseTwo, none'])) ?_
    rcases stands with ⟨rfl, knows⟩ | ⟨-, wrote, one, knows⟩
    · refine .inl ⟨rfl, open', by simp [none'], knows.congr Iff.rfl ?_ Iff.rfl ?_⟩ <;>
        simp [none']
    · refine .inl ⟨rfl, open', fun _ => one, knows.congr ?_ Iff.rfl ?_ ?_⟩ <;>
        simp [wrote, Transaction.nodes]
  · obtain ⟨rfl, knows⟩ := stands.resolve_right fun done => remain done.1
    obtain ⟨nodes₁, vote₁, replied₁, listed⟩ := reply_of_p1c handled
    obtain ⟨rfl, rfl⟩ : nodes = nodes₁ ∧ vote' = vote₁ := by
      simpa using replied.symm.trans replied₁
    have timely := coherent.timely _ _ present
    have one : PhaseOneHandled (world.handled ++ [(id, .p1c transaction.tid
        transaction.startTs transaction.startTs transaction.readNodes
        transaction.writeNodes)]) id :=
      ⟨_, _, _, _, _, List.mem_append_right _ (List.mem_singleton_self _)⟩
    refine coherent.serve (proceeds_serve present rfl rfl (by simp [stage]) handled rfl (by simp)
      (by simp) (fun _ _ _ _ _ same refused => ?_) (by simp [stage, Stage.InPhaseTwo]) (by simp))
      handled (by simp) ⟨rfl, timely.2, fun taken => ?_⟩ ⟨?_, ?_⟩
    · obtain ⟨rfl, -⟩ := by simpa using same
      obtain ⟨-, rfl⟩ := listed.resolve_right fun known => known.1 refused
      exact ⟨_, _, _, rfl, by simpa using remain⟩
    · exact knows.known.2 (Finset.mem_union_left _ (knows.knownWrite.1 taken))
    · rwa [phaseTwoHandled_append (by simp)]
    · have knows' := knows.p1c handled
      rcases listed with ⟨refused, rfl⟩ | ⟨taken, covers⟩
      · have unwritten : 0 ∉ transaction.writeNodes := fun wrote =>
          knows.knownWrite.2 wrote refused
        refine .inl ⟨Finset.sdiff_empty, knows'.congr Iff.rfl ?_ Iff.rfl ?_⟩ <;>
          simp [unwritten]
      · have wrote : 0 ∈ transaction.writeNodes := knows.knownWrite.1 taken
        refine .inr ⟨Finset.sdiff_eq_empty_iff_subset.2 covers, wrote, one,
          knows'.congr ?_ Iff.rfl ?_ ?_⟩ <;>
          simp [wrote, Transaction.nodes]

/-- The loop for `TP2C`. -/
theorem phaseTwo (coherent : Coherent world)
    (stepped : world.step mapper (.phaseTwo id) = .ok world') : Coherent world' := by
  obtain ⟨transaction, committing, vote, remNodes, present, stage, cases⟩ :=
    phaseTwo_cases stepped
  have accounted := coherent.accounted _ _ present
  simp only [Transaction.Accounted, stage] at accounted
  rcases cases with ⟨none', rfl⟩ | ⟨server', nodes, remain, handled, replied, rfl⟩
  · refine coherent.store (proceeds_store present rfl rfl (by simp [stage])
      (by simp [stage, Stage.InPhaseOne, Stage.InPhaseTwo, none'])) ?_
    rcases accounted with ⟨rfl, -, -, knows⟩ | knows
    · have unused : 0 ∉ transaction.nodes := by simp [none']
      have unwritten : 0 ∉ transaction.writeNodes := fun wrote =>
        unused (Finset.mem_union_left _ wrote)
      exact knows.congr (by simp [unused]) Iff.rfl (by simp [unwritten]) (by simp [unwritten])
    · exact knows
  · obtain ⟨nodes₁, replied₁, listed⟩ := reply_of_p2c handled
    obtain rfl : nodes = nodes₁ := by
      simpa using replied.symm.trans replied₁
    have knows' : Knows server' transaction.tid False False False False := by
      rcases accounted with ⟨-, -, -, knows⟩ | knows
      · exact knows.p2c handled (fun wrote => wrote) (fun wrote => Finset.mem_union_left _ wrote)
      · exact knows.p2c handled False.elim False.elim
    refine coherent.serve (proceeds_serve present rfl rfl (by simp [stage]) handled rfl (by simp)
      (by simp [stage, Stage.InPhaseOne]) (by simp) (by simp) (fun _ _ same refused => ?_))
      handled (by simp) (fun event state here owner unanswered => ?_) (.inr knows')
    · obtain ⟨rfl, -⟩ := by simpa using same
      obtain rfl := listed refused
      exact ⟨_, _, _, rfl, by simpa using remain⟩
    -- The transaction has stopped reading.
    · obtain ⟨other, current, key, node, there, tid, reading⟩ :=
        (coherent.events event state here).2 unanswered
      obtain rfl := coherent.distinct _ _ _ _ there present (tid.trans owner)
      obtain rfl := Option.some.inj (present.symm.trans there)
      simp [stage] at reading

end Coherent

/--
A transaction begins with an ID that no other has had, and with a start
timestamp other than the first and the last.
-/
def DistinctStarts (world : World) : Move → Prop
  | .start _ tid startTs =>
      (∀ id < world.begun, (world.transactions id).map (·.tid) ≠ some tid) ∧
        1 ≤ startTs ∧ startTs < uintMax
  | _ => True

instance (world : World) (move : Move) : Decidable (DistinctStarts world move) :=
  match move with
  | .start _ tid startTs => inferInstanceAs (Decidable
      ((∀ id < world.begun, (world.transactions id).map (·.tid) ≠ some tid) ∧
        1 ≤ startTs ∧ startTs < uintMax))
  | .read _ _ _ | .write _ _ _ | .finish _ _ | .phaseOne _ _ | .phaseTwo _ =>
      inferInstanceAs (Decidable True)

theorem Coherent.step {move : Move} (coherent : Coherent world)
    (permitted : DistinctStarts world move)
    (stepped : world.step mapper move = .ok world') : Coherent world' := by
  cases move with
  | start => exact coherent.start permitted.1 permitted.2 stepped
  | read => exact coherent.read stepped
  | write => exact coherent.write stepped
  | finish => exact coherent.finish stepped
  | phaseOne => exact coherent.phaseOne stepped
  | phaseTwo => exact coherent.phaseTwo stepped

theorem coherent_of_reach
    (reached : Reach (World.step mapper) DistinctStarts .first world) : Coherent world :=
  reached.invariant .first fun _ _ _ coherent permitted stepped =>
    coherent.step permitted stepped

end Mvtx.Cluster
