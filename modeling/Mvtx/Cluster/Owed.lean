import Mvtx.Cluster.Coherent
import Mvtx.Server.Settled

/-!
# What unfinished transactions owe

Here transaction IDs may be shared.  Whatever the server keeps under an ID is
kept while some transaction with this ID owes it a `TP2C`, so nothing is kept
when all transactions have ended.
-/

namespace Mvtx.Cluster

open Lib Server Lock

/-- A transaction owes a `TP2C`: it has sent a request, and its `TP2C` has not been accepted. -/
def Transaction.Owes (transaction : Transaction) : Prop :=
  match transaction.stage with
  | .active | .phaseOne _ _ _ => transaction.nodes ≠ ∅
  | .reading _ _ _ => True
  | .phaseTwo _ _ remNodes => remNodes ≠ ∅
  | .ended _ _ => False

/-- A transaction owes a `TP1C`. -/
def Transaction.OwesPhaseOne (transaction : Transaction) : Prop :=
  match transaction.stage with
  | .active | .reading _ _ _ => transaction.writeNodes ≠ ∅
  | .phaseOne _ remNodes _ => remNodes ≠ ∅
  | .phaseTwo _ _ _ | .ended _ _ => False

/-- Some transaction with an ID owes a `TP2C`. -/
def World.Owes (world : World) (tid : Nat) : Prop :=
  ∃ id transaction, world.transactions id = some transaction ∧ transaction.tid = tid ∧
    transaction.Owes

/-- Some transaction with an ID owes a `TP1C`. -/
def World.OwesPhaseOne (world : World) (tid : Nat) : Prop :=
  ∃ id transaction, world.transactions id = some transaction ∧ transaction.tid = tid ∧
    transaction.OwesPhaseOne

/-- The loop for `TP1C` is about nodes that the transaction has written to. -/
def Transaction.Within (transaction : Transaction) : Prop :=
  ∀ committing remNodes vote, transaction.stage = .phaseOne committing remNodes vote →
    remNodes ⊆ transaction.writeNodes

/-- What the server keeps is owed to it. -/
structure Owed (world : World) : Prop extends Tracked world where
  nodes : world.server.nodes = {0}
  within : ∀ id transaction, world.transactions id = some transaction → transaction.Within
  timely : ∀ id transaction, world.transactions id = some transaction →
    transaction.startTs < uintMax
  known : ∀ tid, world.server.tidToNodes tid ≠ none → world.Owes tid
  knownWrite : ∀ tid, world.server.tidToWriteNodes tid ≠ none → world.OwesPhaseOne tid
  written : ∀ tid, world.server.pendWrites tid ≠ none →
    world.OwesPhaseOne tid ∨ world.server.rdyToCommit tid ≠ none
  prepared : ∀ tid, world.server.rdyToCommit tid ≠ none → world.Owes tid
  settled : ∀ bound, 1 ≤ bound → bound ≤ uintMax →
    (∀ id transaction, world.transactions id = some transaction → transaction.startTs < bound) →
      Settled bound world.Owes world.server

variable {world world' : World} {id event : Nat} {unset : Bool} {request : Request}
  {transaction transaction' : Transaction} {server' : SimpleTServer}

namespace World

variable {more : List (Nat × Request)} {tid : Nat}

theorem owes_after_of_other (present : world.transactions id = some transaction)
    (other : tid ≠ transaction.tid) (owes : world.Owes tid) :
    (world.after server' id transaction' more).Owes tid := by
  obtain ⟨holder, current, there, rfl, owing⟩ := owes
  have differs : holder ≠ id := by
    rintro rfl
    exact other (congrArg Transaction.tid (Option.some.inj (present.symm.trans there))).symm
  exact ⟨holder, current, after_of_ne there differs, rfl, owing⟩

theorem owes_after (present : world.transactions id = some transaction)
    (same : transaction'.tid = transaction.tid)
    (goesOn : transaction.Owes → transaction'.Owes) (owes : world.Owes tid) :
    (world.after server' id transaction' more).Owes tid := by
  obtain ⟨holder, current, there, rfl, owing⟩ := owes
  by_cases differs : holder = id
  · subst differs
    obtain rfl := Option.some.inj (present.symm.trans there)
    exact ⟨holder, transaction', after_self, same, goesOn owing⟩
  · exact ⟨holder, current, after_of_ne there differs, rfl, owing⟩

theorem owesPhaseOne_after (present : world.transactions id = some transaction)
    (same : transaction'.tid = transaction.tid)
    (goesOn : transaction.tid = tid → transaction.OwesPhaseOne → transaction'.OwesPhaseOne)
    (owes : world.OwesPhaseOne tid) :
    (world.after server' id transaction' more).OwesPhaseOne tid := by
  obtain ⟨holder, current, there, rfl, owing⟩ := owes
  by_cases differs : holder = id
  · subst differs
    obtain rfl := Option.some.inj (present.symm.trans there)
    exact ⟨holder, transaction', after_self, same, goesOn rfl owing⟩
  · exact ⟨holder, current, after_of_ne there differs, rfl, owing⟩

end World

namespace Owed

theorem first : Owed .first where
  toTracked := .first
  nodes := rfl
  within := by simp [World.first]
  timely := by simp [World.first]
  known := by simp [World.first, SimpleTServer.initial]
  knownWrite := by simp [World.first, SimpleTServer.initial]
  written := by simp [World.first, SimpleTServer.initial]
  prepared := by simp [World.first, SimpleTServer.initial]
  settled := fun bound positive _ _ => .initial positive

/-- A transaction goes on, and what is kept under its ID is owed afterwards. -/
theorem change (owed : Owed world) {more : List (Nat × Request)}
    (proceeds : Proceeds world id transaction transaction' server' more)
    (within : transaction'.Within)
    (known : server'.tidToNodes transaction.tid ≠ none → transaction'.Owes ∨
      world.server.tidToNodes transaction.tid ≠ none ∧ (transaction.Owes → transaction'.Owes))
    (knownWrite : server'.tidToWriteNodes transaction.tid ≠ none → transaction'.OwesPhaseOne ∨
      world.server.tidToWriteNodes transaction.tid ≠ none ∧
        (transaction.OwesPhaseOne → transaction'.OwesPhaseOne))
    (written : server'.pendWrites transaction.tid ≠ none → transaction'.OwesPhaseOne ∨
      server'.rdyToCommit transaction.tid ≠ none ∨
      world.server.pendWrites transaction.tid ≠ none ∧
        world.server.rdyToCommit transaction.tid = none ∧
        (transaction.OwesPhaseOne → transaction'.OwesPhaseOne))
    (prepared : server'.rdyToCommit transaction.tid ≠ none → transaction'.Owes ∨
      world.server.rdyToCommit transaction.tid ≠ none ∧ (transaction.Owes → transaction'.Owes))
    (settled : ∀ bound, bound ≤ uintMax → transaction.startTs < bound →
      Settled bound world.Owes world.server →
      Settled bound (world.after server' id transaction' more).Owes server') :
    Owed (world.after server' id transaction' more) := by
  have tracked := owed.toTracked.change proceeds
  obtain ⟨present, tid, startTs, -, own, touches, -, -, -⟩ := proceeds
  have mine : transaction'.Owes →
      (world.after server' id transaction' more).Owes transaction.tid := fun owing =>
    ⟨id, transaction', World.after_self, tid, owing⟩
  have mineOne : transaction'.OwesPhaseOne →
      (world.after server' id transaction' more).OwesPhaseOne transaction.tid := fun owing =>
    ⟨id, transaction', World.after_self, tid, owing⟩
  refine
    { toTracked := tracked
      nodes := touches.nodes.trans owed.nodes
      within := fun other current here => ?_
      timely := fun other current here => ?_
      known := fun other here => ?_
      knownWrite := fun other here => ?_
      written := fun other here => ?_
      prepared := fun other here => ?_
      settled := fun bound positive small above => ?_ }
  · rcases World.after_cases here with ⟨rfl, rfl⟩ | ⟨-, old⟩
    · exact within
    · exact owed.within other current old
  · rcases World.after_cases here with ⟨rfl, rfl⟩ | ⟨-, old⟩
    · exact startTs ▸ owed.timely other transaction present
    · exact owed.timely other current old
  · by_cases same : other = transaction.tid
    · subst same
      rcases known here with owing | ⟨before, goesOn⟩
      · exact mine owing
      · exact World.owes_after present tid goesOn (owed.known _ before)
    · exact World.owes_after_of_other present same
        (owed.known other (touches.known other same ▸ here))
  · by_cases same : other = transaction.tid
    · subst same
      rcases knownWrite here with owing | ⟨before, goesOn⟩
      · exact mineOne owing
      · exact World.owesPhaseOne_after present tid (fun _ => goesOn) (owed.knownWrite _ before)
    · exact World.owesPhaseOne_after present tid (fun is => absurd is.symm same)
        (owed.knownWrite other (touches.knownWrite other same ▸ here))
  · by_cases same : other = transaction.tid
    · subst same
      rcases written here with owing | ready | ⟨before, unready, goesOn⟩
      · exact .inl (mineOne owing)
      · exact .inr ready
      · refine .inl (World.owesPhaseOne_after present tid (fun _ => goesOn) ?_)
        exact (owed.written _ before).resolve_right fun ready => ready unready
    · refine (owed.written other (touches.pendWrites other same ▸ here)).imp ?_ ?_
      · exact World.owesPhaseOne_after present tid (fun is => absurd is.symm same)
      · exact fun ready => (touches.rdyToCommit other same).symm ▸ ready
  · by_cases same : other = transaction.tid
    · subst same
      rcases prepared here with owing | ⟨before, goesOn⟩
      · exact mine owing
      · exact World.owes_after present tid goesOn (owed.prepared _ before)
    · exact World.owes_after_of_other present same
        (owed.prepared other (touches.rdyToCommit other same ▸ here))
  · refine settled bound small ?_ (owed.settled bound positive small fun other current there => ?_)
    · exact startTs ▸ above id transaction' World.after_self
    · by_cases same : other = id
      · subst same
        obtain rfl := Option.some.inj (present.symm.trans there)
        exact startTs ▸ above other transaction' World.after_self
      · exact above other current (World.after_of_ne there same)

/-- A transaction goes on without a request. -/
theorem store (owed : Owed world)
    (proceeds : Proceeds world id transaction transaction' world.server [])
    (within : transaction'.Within) (owes : transaction.Owes → transaction'.Owes)
    (owesPhaseOne : transaction.OwesPhaseOne → transaction'.OwesPhaseOne) :
    Owed (world.store id transaction') := by
  rw [← world.after_nil]
  refine owed.change proceeds within (fun here => .inr ⟨here, owes⟩)
    (fun here => .inr ⟨here, owesPhaseOne⟩) (fun here => ?_) (fun here => .inr ⟨here, owes⟩)
    (fun bound _ _ settled => ?_)
  · by_cases ready : world.server.rdyToCommit transaction.tid = none
    · exact .inr (.inr ⟨here, ready, owesPhaseOne⟩)
    · exact .inr (.inl ready)
  · have goesOn : ∀ tid, world.Owes tid → (world.after world.server id transaction' []).Owes tid :=
      fun tid => World.owes_after proceeds.present proceeds.tid owes
    exact settled.frame settled.bounded
      (fun tid key recorded => goesOn tid (settled.records tid key recorded)) rfl
      (fun _ _ _ => rfl) (fun _ state _ _ => goesOn state.tid)

/-- A transaction goes on with a request. -/
theorem serve {mapper : Nat → Nat} (owed : Owed world)
    (proceeds : Proceeds world id transaction transaction' server' [(id, request)])
    (handled : Handled mapper world.server (world.sent + 1) event unset request server')
    (new : ∀ tid startTs key, request = .read tid startTs key →
      world.server.readEvents event = none)
    (within : transaction'.Within)
    (known : server'.tidToNodes transaction.tid ≠ none → transaction'.Owes ∨
      world.server.tidToNodes transaction.tid ≠ none ∧ (transaction.Owes → transaction'.Owes))
    (knownWrite : server'.tidToWriteNodes transaction.tid ≠ none → transaction'.OwesPhaseOne ∨
      world.server.tidToWriteNodes transaction.tid ≠ none ∧
        (transaction.OwesPhaseOne → transaction'.OwesPhaseOne))
    (written : server'.pendWrites transaction.tid ≠ none → transaction'.OwesPhaseOne ∨
      server'.rdyToCommit transaction.tid ≠ none ∨
      world.server.pendWrites transaction.tid ≠ none ∧
        world.server.rdyToCommit transaction.tid = none ∧
        (transaction.OwesPhaseOne → transaction'.OwesPhaseOne))
    (prepared : server'.rdyToCommit transaction.tid ≠ none → transaction'.Owes ∨
      world.server.rdyToCommit transaction.tid ≠ none ∧ (transaction.Owes → transaction'.Owes))
    (timely : ∀ bound, transaction.startTs < bound → ∀ owes : Nat → Prop,
      (transaction'.Owes → owes transaction.tid) → request.Within bound owes)
    (ends : (∀ vote, request ≠ .p2c transaction.tid vote) ∨
      world.server.tidToNodes transaction.tid = none → transaction.Owes → transaction'.Owes) :
    Owed (world.after server' id transaction' [(id, request)]) := by
  have present := proceeds.present
  have same := proceeds.tid
  refine owed.change proceeds within known knownWrite written prepared
    fun bound small above settled => ?_
  refine settled.handled small handled new owed.unsent owed.fresh ?_ (fun tid still owes => ?_)
    (fun event' state here unanswered _ => ?_)
  · exact timely bound above _ fun owing => ⟨id, transaction', World.after_self, same, owing⟩
  · by_cases mine : tid = transaction.tid
    · subst mine
      exact World.owes_after present same (ends still) owes
    · exact World.owes_after_of_other present mine owes
  · obtain ⟨other, current, key, node, there, owner, reading⟩ :=
      (owed.events event' state here).2 unanswered
    have differs : other ≠ id := by
      rintro rfl
      obtain rfl := Option.some.inj (present.symm.trans there)
      exact proceeds.answered _ _ _ reading unanswered
    refine ⟨other, current, World.after_of_ne there differs, owner, ?_⟩
    simp [Transaction.Owes, reading]

/-- A transaction that is ready has collected the reply to its last read. -/
theorem ready (owed : Owed world) (found : world.ready id = .ok transaction) :
    transaction.stage = .active ∧ Owed (world.store id transaction) := by
  obtain ⟨stage, current, proceeds, collected⟩ := proceeds_ready found
  refine ⟨stage, owed.store proceeds (by simp [Transaction.Within, stage]) ?_ ?_⟩
  · rcases collected with rfl | ⟨rid, key, node, value, status, reading, -, rfl⟩
    · exact fun owes => owes
    · exact fun _ => by simp [Transaction.Owes, Transaction.nodes]
  · rcases collected with rfl | ⟨rid, key, node, value, status, reading, -, rfl⟩
    · exact fun owes => owes
    · exact fun owes => by simpa [Transaction.OwesPhaseOne, reading] using owes

theorem start {mapper : Nat → Nat} {process tid startTs : Nat} (owed : Owed world)
    (timely : startTs < uintMax)
    (stepped : world.step mapper (.start process tid startTs) = .ok world') : Owed world' := by
  have tracked := owed.toTracked.start stepped
  obtain rfl := Except.ok.inj stepped
  have owes : ∀ other, world.Owes other → World.Owes
      { world with
        curIds := Function.update world.curIds process
          (genTransactionID (world.curIds process)).2
        transactions := Function.update world.transactions world.begun (some (.new tid startTs))
        begun := world.begun + 1 } other := fun other ⟨id, transaction, there, rest⟩ =>
    ⟨id, transaction, owed.start_of_ne there, rest⟩
  have owesPhaseOne : ∀ other, world.OwesPhaseOne other → World.OwesPhaseOne
      { world with
        curIds := Function.update world.curIds process
          (genTransactionID (world.curIds process)).2
        transactions := Function.update world.transactions world.begun (some (.new tid startTs))
        begun := world.begun + 1 } other := fun other ⟨id, transaction, there, rest⟩ =>
    ⟨id, transaction, owed.start_of_ne there, rest⟩
  refine
    { toTracked := tracked
      nodes := owed.nodes
      within := fun id transaction present => ?_
      timely := fun id transaction present => ?_
      known := fun other known => owes other (owed.known other known)
      knownWrite := fun other known => owesPhaseOne other (owed.knownWrite other known)
      written := fun other written => (owed.written other written).imp_left (owesPhaseOne other)
      prepared := fun other prepared => owes other (owed.prepared other prepared)
      settled := fun bound positive small above => ?_ }
  · rcases World.start_cases present with ⟨rfl, rfl⟩ | old
    · simp [Transaction.Within, Transaction.new]
    · exact owed.within id transaction old
  · rcases World.start_cases present with ⟨rfl, rfl⟩ | old
    · exact timely
    · exact owed.timely id transaction old
  · have settled := owed.settled bound positive small fun id transaction there =>
      above id transaction (owed.start_of_ne there)
    exact settled.frame settled.bounded
      (fun tid key recorded => owes tid (settled.records tid key recorded)) rfl
      (fun _ _ _ => rfl) (fun _ state _ _ => owes state.tid)

theorem read {mapper : Nat → Nat} {key : Nat} (owed : Owed world)
    (positive : ∀ transaction, world.transactions id = some transaction →
      transaction.pendWrites key = none → 1 ≤ transaction.startTs)
    (stepped : world.step mapper (.read id key event) = .ok world') : Owed world' := by
  obtain ⟨transaction, found, cases⟩ := read_cases stepped
  obtain ⟨stage, owed'⟩ := owed.ready found
  rcases cases with ⟨value, -, rfl⟩ | ⟨server', unwritten, new, handled, rfl⟩
  · rw [← World.store_store world id transaction]
    exact owed'.store (proceeds_of_active stage rfl rfl) (by simp [Transaction.Within, stage])
      (fun owes => owes) (fun owes => owes)
  · have first : 1 ≤ transaction.startTs := by
      obtain ⟨-, current, proceeds, collected⟩ := proceeds_ready found
      rw [proceeds.startTs]
      refine positive current proceeds.present ?_
      rcases collected with rfl | ⟨_, _, _, _, _, -, -, rfl⟩
      · exact unwritten
      · exact unwritten
    have knows := Knows.read (Knows.self world.server transaction.tid) handled
    rw [← World.after_store world id transaction]
    refine owed'.serve (proceeds_serve_of_active stage rfl rfl handled rfl
      (fun _ _ _ _ => ⟨key, mapper key, rfl⟩) (by simp)) handled (fun _ _ _ _ => new)
      (by simp [Transaction.Within]) (fun _ => .inl trivial)
      (fun here => .inr ⟨knows.2.knownWrite.1 here, fun owes => ?_⟩)
      (fun here => ?_) (fun here => .inl trivial)
      (fun bound above owes owing => ⟨first, above, owing trivial⟩) (fun _ _ => trivial)
    · simpa [Transaction.OwesPhaseOne, stage] using owes
    · by_cases ready : server'.rdyToCommit transaction.tid = none
      · refine .inr (.inr ⟨knows.2.written.1 here, ?_, fun owes => ?_⟩)
        · by_contra was
          exact knows.2.prepared.2 was ready
        · simpa [Transaction.OwesPhaseOne, stage] using owes
      · exact .inr (.inl ready)

theorem write {mapper : Nat → Nat} {key : Nat} {value : String} (owed : Owed world)
    (stepped : world.step mapper (.write id key value) = .ok world') : Owed world' := by
  obtain ⟨transaction, server', found, handled, rfl⟩ := write_cases stepped
  obtain ⟨stage, owed'⟩ := owed.ready found
  rw [← World.after_store world id transaction]
  have owes : Transaction.Owes
      { transaction with
        pendWrites := Function.update transaction.pendWrites key (some value)
        writeNodes := insert (mapper key) transaction.writeNodes } := by
    simp [Transaction.Owes, Transaction.nodes, stage]
  have owesPhaseOne : Transaction.OwesPhaseOne
      { transaction with
        pendWrites := Function.update transaction.pendWrites key (some value)
        writeNodes := insert (mapper key) transaction.writeNodes } := by
    simp [Transaction.OwesPhaseOne, stage]
  exact owed'.serve (proceeds_serve_of_active stage rfl rfl handled rfl (by simp) (by simp))
    handled (by simp) (by simp [Transaction.Within, stage]) (fun _ => .inl owes)
    (fun _ => .inl owesPhaseOne) (fun _ => .inl owesPhaseOne) (fun _ => .inl owes)
    (fun _ _ _ _ => trivial) (fun _ _ => owes)

theorem finish {mapper : Nat → Nat} {committing : Bool} (owed : Owed world)
    (stepped : world.step mapper (.finish id committing) = .ok world') : Owed world' := by
  obtain ⟨transaction, found, rfl⟩ := finish_cases stepped
  obtain ⟨stage, owed'⟩ := owed.ready found
  rw [← World.store_store world id transaction]
  refine owed'.store (proceeds_of_active stage rfl rfl) ?_ (fun owes => ?_) (fun owes => ?_)
  · intro committing' remNodes vote same
    obtain ⟨-, rfl, -⟩ := by simpa using same
    exact Finset.Subset.refl _
  · simpa [Transaction.Owes, Transaction.nodes, stage] using owes
  · simpa [Transaction.OwesPhaseOne, stage] using owes

theorem phaseOne {mapper : Nat → Nat} (owed : Owed world)
    (stepped : world.step mapper (.phaseOne id unset) = .ok world') : Owed world' := by
  obtain ⟨transaction, committing, remNodes, vote, present, stage, cases⟩ :=
    phaseOne_cases stepped
  rcases cases with ⟨none', rfl⟩ | ⟨server', nodes, vote', remain, handled, replied, rfl⟩
  · refine owed.store (proceeds_store present rfl rfl (by simp [stage])
      (by simp [stage, Stage.InPhaseOne, Stage.InPhaseTwo, none'])) (by simp [Transaction.Within])
      (fun owes => ?_) (fun owes => ?_)
    · simpa [Transaction.Owes, stage] using owes
    · simp [Transaction.OwesPhaseOne, stage, none'] at owes
  · have within := owed.within _ _ present _ _ _ stage
    have used : transaction.nodes ≠ ∅ := by
      intro unused
      refine remain (Finset.subset_empty.1 (within.trans ?_))
      exact unused ▸ Finset.subset_union_left
    obtain ⟨nodes₁, vote₁, replied₁, listed⟩ := reply_of_p1c handled
    obtain ⟨rfl, rfl⟩ : nodes = nodes₁ ∧ vote' = vote₁ := by
      simpa using replied.symm.trans replied₁
    have knows := Knows.p1c (Knows.self world.server transaction.tid) handled
    refine owed.serve (proceeds_serve present rfl rfl (by simp [stage]) handled rfl (by simp)
      (by simp) (fun _ _ _ _ _ same refused => ?_) (by simp [stage, Stage.InPhaseTwo]) (by simp))
      handled (by simp) ?_ (fun _ => .inl used) (fun here => absurd here knows.knownWrite.1)
      (fun here => ?_) (fun _ => .inl used) (fun bound above owes owing => ?_) (fun _ _ => used)
    · obtain ⟨rfl, -⟩ := by simpa using same
      obtain ⟨-, rfl⟩ := listed.resolve_right fun known => known.1 refused
      exact ⟨_, _, _, rfl, by simpa using remain⟩
    · intro committing' remNodes' vote'' same
      obtain ⟨-, rfl, -⟩ := by simpa using same
      exact Finset.sdiff_subset.trans within
    · rcases listed with ⟨refused, rfl⟩ | ⟨taken, -⟩
      · left
        simpa [Transaction.OwesPhaseOne] using remain
      · exact .inr (.inl (knows.prepared.2 (.inl taken)))
    · exact ⟨rfl, above, owing used⟩

theorem phaseTwo {mapper : Nat → Nat} (owed : Owed world)
    (stepped : world.step mapper (.phaseTwo id) = .ok world') : Owed world' := by
  obtain ⟨transaction, committing, vote, remNodes, present, stage, cases⟩ :=
    phaseTwo_cases stepped
  rcases cases with ⟨none', rfl⟩ | ⟨server', nodes, remain, handled, replied, rfl⟩
  · refine owed.store (proceeds_store present rfl rfl (by simp [stage])
      (by simp [stage, Stage.InPhaseOne, Stage.InPhaseTwo, none'])) (by simp [Transaction.Within])
      (fun owes => ?_) (fun owes => ?_)
    · simp [Transaction.Owes, stage, none'] at owes
    · simp [Transaction.OwesPhaseOne, stage] at owes
  · obtain ⟨nodes₁, replied₁, listed⟩ := reply_of_p2c handled
    obtain rfl : nodes = nodes₁ := by
      simpa using replied.symm.trans replied₁
    have idle : transaction.OwesPhaseOne → Transaction.OwesPhaseOne
        { transaction with stage := .phaseTwo committing vote (remNodes \ nodes) } := by
      simp [Transaction.OwesPhaseOne, stage]
    have refusedStays : world.server.tidToNodes transaction.tid = none → Transaction.Owes
        { transaction with stage := .phaseTwo committing vote (remNodes \ nodes) } := by
      intro refused
      obtain rfl := listed refused
      simpa [Transaction.Owes] using remain
    obtain ⟨known, knownWrite, outcome⟩ := entries_of_p2c handled
    refine owed.serve (proceeds_serve present rfl rfl (by simp [stage]) handled rfl (by simp)
      (by simp [stage, Stage.InPhaseOne]) (by simp) (by simp) (fun _ _ same refused => ?_))
      handled (by simp) (by simp [Transaction.Within]) (fun here => absurd known here)
      (fun here => .inr ⟨knownWrite ▸ here, idle⟩) (fun here => ?_) (fun here => ?_)
      (fun _ _ _ _ => trivial) (fun still owes => ?_)
    · obtain ⟨rfl, -⟩ := by simpa using same
      obtain rfl := listed refused
      exact ⟨_, _, _, rfl, by simpa using remain⟩
    · rcases outcome with ⟨-, -, pending⟩ | ⟨-, ready, pending⟩
      · rw [pending] at here
        split at here
        · next unready => exact .inr (.inr ⟨here, unready, idle⟩)
        · exact absurd rfl here
      · rw [pending] at here
        by_cases unready : world.server.rdyToCommit transaction.tid = none
        · exact .inr (.inr ⟨here, unready, idle⟩)
        · exact .inr (.inl (ready ▸ unready))
    · rcases outcome with ⟨-, ready, -⟩ | ⟨refused, ready, -⟩
      · exact absurd ready here
      · exact .inl (refusedStays refused)
    · exact refusedStays (still.resolve_left fun differs => differs vote rfl)

end Owed

/--
The last timestamp is not used.  A transaction that starts at the first one does
not read from the server, since that read would go back from the last one.
-/
def TimelyStarts (world : World) : Move → Prop
  | .start _ _ startTs => startTs < uintMax
  | .read id key _ => ∀ transaction ∈ world.transactions id,
      transaction.pendWrites key = none → 1 ≤ transaction.startTs
  | _ => True

instance (world : World) (move : Move) : Decidable (TimelyStarts world move) :=
  match move with
  | .start _ _ startTs => inferInstanceAs (Decidable (startTs < uintMax))
  | .read id key _ => inferInstanceAs (Decidable (∀ transaction ∈ world.transactions id,
      transaction.pendWrites key = none → 1 ≤ transaction.startTs))
  | .write _ _ _ | .finish _ _ | .phaseOne _ _ | .phaseTwo _ => inferInstanceAs (Decidable True)

theorem Owed.step {mapper : Nat → Nat} {move : Move} (owed : Owed world)
    (permitted : TimelyStarts world move)
    (stepped : world.step mapper move = .ok world') : Owed world' := by
  cases move with
  | start => exact owed.start permitted stepped
  | read => exact owed.read permitted stepped
  | write => exact owed.write stepped
  | finish => exact owed.finish stepped
  | phaseOne => exact owed.phaseOne stepped
  | phaseTwo => exact owed.phaseTwo stepped

theorem owed_of_reach {mapper : Nat → Nat}
    (reached : Reach (World.step mapper) TimelyStarts .first world) : Owed world :=
  reached.invariant .first fun _ _ _ owed permitted stepped => owed.step permitted stepped

end Mvtx.Cluster
