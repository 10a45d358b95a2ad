import Mvtx.Cluster.Messages
import Mvtx.Lib.Contention

/-!
# Why a commit fails

`commit` returns false only if a lock has been refused, and a lock is refused
only for one of two reasons.  A transaction with a later start timestamp has
read the key, or the transaction itself has written the key twice: `TP1C` goes
through the writes one by one, and the second one meets the lock of the first.
-/

namespace Mvtx.Cluster

open Lib Lib.Serial Lib.Multiversion Lock AVLTreeLockManager Server Client

/-- The keys that a program writes, once for every write. -/
def writtenKeys (program : List (Operation Nat String)) : List Nat :=
  program.filterMap fun operation =>
    match operation with
    | .read _ => none
    | .write key _ => some key

/-- `commit` has been refused a lock. -/
def Transaction.Refused (transaction : Transaction) : Prop :=
  match transaction.stage with
  | .active | .reading _ _ _ => False
  | .phaseOne committing _ vote | .phaseTwo committing vote _ | .ended committing vote =>
      committing = true ∧ vote = false

/-- Another transaction has been asked to read what a transaction writes, and starts later. -/
def World.Overtaken (world : World) (moves : List Move) (transaction : Transaction) : Prop :=
  ∃ key other current, transaction.pendWrites key ≠ none ∧
    world.transactions other = some current ∧ transaction.startTs < current.startTs ∧
    .read key ∈ program moves other

variable {world world' : World} {moves : List Move} {move : Move} {id : Nat} {unset : Bool}
  {transaction current : Transaction} {server' : SimpleTServer} {state : Protocol}
  {programs : Nat → List (Operation Nat String)}

/-! ## One step -/

/-- All writes go to the node `0`. -/
theorem writeNodes_of_reach {allowed : World → Move → Prop}
    (reached : Reach (World.step getNode) allowed .first world)
    (present : world.transactions id = some transaction) : transaction.writeNodes ⊆ {0} := by
  induction reached generalizing id transaction with
  | refl => simp [World.first] at present
  | tail _ _ stepped ih =>
      obtain ⟨owner, changed, transactions, cases⟩ := exists_goesOn stepped
      rw [transactions] at present
      by_cases same : id = owner
      · subst same
        obtain rfl : changed = transaction := by simpa using present
        rcases cases with ⟨-, process, tid, startTs, -, rfl⟩ | ⟨current, old, -, more⟩
        · simp [Transaction.new]
        · exact more.trans (Finset.insert_subset (Finset.mem_singleton_self 0) (ih old))
      · exact ih (by simpa [same] using present)

/-- Who has overtaken a transaction has done so for good. -/
theorem World.Overtaken.step (overtaken : world.Overtaken moves transaction)
    (idle : world.transactions world.begun = none)
    (stepped : world.step getNode move = .ok world') :
    world'.Overtaken (moves ++ [move]) transaction := by
  obtain ⟨key, other, current, wrote, there, later, asked⟩ := overtaken
  have asked' : Operation.read key ∈ program (moves ++ [move]) other := by
    rw [program_append]
    exact List.mem_append_left _ asked
  obtain ⟨owner, changed, transactions, cases⟩ := exists_goesOn stepped
  by_cases same : other = owner
  · subst same
    rcases cases with ⟨rfl, -⟩ | ⟨current', there', startTs, -⟩
    · exact absurd (idle.symm.trans there) (by simp)
    · obtain rfl := Option.some.inj (there.symm.trans there')
      exact ⟨key, other, changed, wrote, by simp [transactions], startTs ▸ later, asked'⟩
  · exact ⟨key, other, current, wrote, by simpa [transactions, same] using there, later, asked'⟩

/-! ## The votes -/

/-- A `TP1C` that does not lock all its keys has met one that is not free. -/
theorem exists_taken {manager manager' : AVLTreeLockManager} {claims : Nat → Nat → Claim Nat}
    {keys : List Nat} {tid ts : Nat} (realizes : Realizes manager claims) (bound : ts < uintMax)
    (distinct : keys.Nodup)
    (locked : SimpleTServer.lockKeys tid ts ts keys manager = .ok (manager', false)) :
    ∃ key ∈ keys, claims key ts ≠ .free := by
  induction keys generalizing manager claims with
  | nil => simp [SimpleTServer.lockKeys] at locked
  | cons key keys ih =>
      obtain ⟨⟨manager₁, res⟩, returned, rest⟩ := exists_of_bind locked
      obtain ⟨lock, covering, rfl, realizes₁⟩ := realizes.point bound returned
      obtain ⟨absent, distinct'⟩ := List.nodup_cons.1 distinct
      cases passes : lock.status.passes false with
      | false =>
          refine ⟨key, List.mem_cons_self, fun free => ?_⟩
          have status := congrArg Prod.fst (realizes.shows covering)
          rw [free] at status
          simp [claimView] at status
          simp [status, LockStatus.passes] at passes
      | true =>
          simp only [passes, if_true] at rest realizes₁
          obtain ⟨other, member, taken⟩ := ih realizes₁ distinct' rest
          have differs : other ≠ key := fun same => absent (same ▸ member)
          exact ⟨other, List.mem_cons_of_mem _ member, by simpa [changeAt, differs] using taken⟩

/-- The keys that a `TP1C` goes through are those that the transaction has written. -/
theorem Logged.getKeys_eq {server : SimpleTServer} {program : List (Operation Nat String)}
    {record : Account} (logged : Logged server program transaction record)
    (unsettled : Open record) (idle : ∀ rid key node, transaction.stage ≠ .reading rid key node) :
    server.getKeys transaction.tid = writtenKeys program := by
  have program_eq := logged.program
  rw [Transaction.waitsFor_of_idle idle, List.append_nil] at program_eq
  have keys : server.getKeys transaction.tid =
      ((server.pendWrites transaction.tid).getD []).map (·.1) := by
    rw [SimpleTServer.getKeys]
    cases server.pendWrites transaction.tid <;> rfl
  rw [keys, logged.pending unsettled, program_eq, writtenKeys, List.filterMap_map,
    List.map_filterMap]
  refine List.filterMap_congr fun entry _ => ?_
  cases entry <;> rfl

/-- A vote against a commit has a reason. -/
theorem exists_overtaking {committing vote : Bool} {remNodes nodes : Finset Nat}
    (coherent : Coherent world) (sound : Sound (fun _ => "0") state)
    (attributed : Attributed state)
    (mirrors : Mirrors (program moves) world.transactions world.server state)
    (apart : world.Apart) (within : transaction.writeNodes ⊆ {0})
    (present : world.transactions id = some transaction)
    (stage : transaction.stage = .phaseOne committing remNodes vote) (remain : remNodes ≠ ∅)
    (handled : Handled getNode world.server (world.sent + 1) 0 unset
      (.p1c transaction.tid transaction.startTs transaction.startTs
        transaction.readNodes transaction.writeNodes) server')
    (replied : server'.replies (world.sent + 1) = some (.p1c nodes false))
    (distinct : (writtenKeys (program moves id)).Nodup) :
    world.Overtaken moves transaction := by
  obtain ⟨record, here, logged⟩ := mirrors.logged id transaction present
  have idle : ¬ transaction.Finishing := by simp [Transaction.Finishing, stage]
  have active := logged.active (by simp [Transaction.Committed, stage, remain])
    fun finishing => absurd finishing idle
  have accounted := coherent.accounted _ _ present
  simp only [Transaction.Accounted, stage] at accounted
  obtain ⟨rfl, knows⟩ := accounted.2.resolve_right fun done => remain done.1
  have wrote : 0 ∈ transaction.writeNodes := by
    obtain ⟨node, member⟩ := Finset.nonempty_iff_ne_empty.2 remain
    exact Finset.mem_singleton.1 (within member) ▸ member
  have getKeys := logged.getKeys_eq (.inl active) (by simp [stage])
  have realizes := mirrors.realizes
  have bound := (coherent.timely _ _ present).2
  cases handled with
  | @p1c _ _ _ _ _ known manager' res taken unlocked locked fresh =>
      obtain ⟨-, rfl⟩ := Reply.p1c.inj
        (Option.some.inj (replied.symm.trans (Function.update_self ..)))
      obtain ⟨key, member, taken'⟩ := exists_taken realizes bound (getKeys ▸ distinct) locked
      have own : transaction.pendWrites key ≠ none := by
        rw [← logged.written, lastWritten_ne_none, ← logged.pending (.inl active)]
        rw [SimpleTServer.getKeys] at member
        cases pending : world.server.pendWrites transaction.tid <;> simp_all
      -- The lock is not its own, since no `TP1C` of this transaction has been handled.
      have others : state.claims key record.start ≠ .writing transaction.tid := by
        intro claimed
        obtain ⟨lock, covering⟩ := exists_covering realizes.wellFormed.trees key bound.le
        have shows := realizes.shows covering
        rw [← logged.start, claimed] at shows
        obtain ⟨status, tids⟩ := Prod.mk.inj shows
        have member := ((covering_eq_some realizes.wellFormed.trees).1 covering).1
        obtain ⟨tid, holds, -, prepared⟩ := coherent.wakeful.held.holder key lock member
          (by rw [status]; rfl)
        obtain rfl : tid = transaction.tid := by simpa [tids, claimView] using holds
        exact knows.prepared.1 (prepared status)
      have alone : ∀ other record', state.records other = some record' →
          record'.start = record.start → other = transaction.tid := by
        intro other record' there same
        obtain ⟨id', current, present', rfl⟩ := mirrors.known other (by simp [there])
        obtain ⟨record'', there', logged'⟩ := mirrors.logged id' current present'
        obtain rfl := Option.some.inj (there.symm.trans there')
        rw [logged'.start, logged.start] at same
        obtain rfl := apart id' id current transaction present' present same
        exact congrArg Transaction.tid (Option.some.inj (present'.symm.trans present))
      obtain ⟨reader, record', there, guarded, later⟩ := attributed.exists_guardedBy sound here
        active alone (logged.start ▸ taken') others
      obtain ⟨other, current, present', rfl⟩ := mirrors.known reader (by simp [there])
      obtain ⟨record'', there', logged'⟩ := mirrors.logged other current present'
      obtain rfl := Option.some.inj (there.symm.trans there')
      exact ⟨key, other, current, own, present', logged.start ▸ logged'.start ▸ later,
        logged'.guarded key ⟨_, guarded⟩⟩
  | p1cRefused refused =>
      exact absurd refused (knows.knownWrite.2 wrote)

/-- A transaction that is refused a lock has been refused one before, or is by this `TP1C`. -/
theorem refused_cases (stepped : world.step getNode move = .ok world')
    (present : world'.transactions id = some transaction) (refused : transaction.Refused) :
    ∃ current, world.transactions id = some current ∧
      transaction.pendWrites = current.pendWrites ∧ transaction.startTs = current.startTs ∧
      move.operation id = none ∧
      (current.Refused ∨ ∃ committing remNodes vote unset server' nodes,
        current.stage = .phaseOne committing remNodes vote ∧ remNodes ≠ ∅ ∧
        Handled getNode world.server (world.sent + 1) 0 unset
          (.p1c current.tid current.startTs current.startTs current.readNodes
            current.writeNodes) server' ∧
        server'.replies (world.sent + 1) = some (.p1c nodes false)) := by
  -- The transactions that the step leaves alone are refused already.
  have own : ∀ {owner changed} {Goal : Prop},
      world'.transactions = Function.update world.transactions owner (some changed) →
      (world.transactions id = some transaction → id ≠ owner → Goal) →
      (owner = id → changed = transaction → Goal) → Goal := by
    intro owner changed Goal transactions left right
    by_cases same : id = owner
    · subst same
      rw [transactions, Function.update_self] at present
      exact right rfl (Option.some.inj present)
    · rw [transactions, Function.update_of_ne same] at present
      exact left present same
  cases move with
  | start process tid startTs =>
      obtain rfl := Except.ok.inj stepped
      refine own rfl (fun there _ => ⟨_, there, rfl, rfl, rfl, .inl refused⟩) fun _ same => ?_
      subst same
      exact refused.elim
  | read id' key event =>
      obtain ⟨current, found, ⟨value, -, rfl⟩ | ⟨server', -, -, -, rfl⟩⟩ := read_cases stepped
      · refine own rfl (fun there differs => ⟨_, there, rfl, rfl, if_neg (Ne.symm differs),
          .inl refused⟩) fun _ same => ?_
        have active := (proceeds_ready found).1
        subst same
        simp [Transaction.Refused, active] at refused
      · refine own rfl (fun there differs => ⟨_, there, rfl, rfl, if_neg (Ne.symm differs),
          .inl refused⟩) fun _ same => ?_
        subst same
        exact refused.elim
  | write id' key value =>
      obtain ⟨current, server', found, -, rfl⟩ := write_cases stepped
      refine own rfl (fun there differs => ⟨_, there, rfl, rfl, if_neg (Ne.symm differs),
        .inl refused⟩) fun _ same => ?_
      have active := (proceeds_ready found).1
      subst same
      simp [Transaction.Refused, active] at refused
  | finish id' committing =>
      obtain ⟨current, found, rfl⟩ := finish_cases stepped
      refine own rfl (fun there _ => ⟨_, there, rfl, rfl, rfl, .inl refused⟩) fun _ same => ?_
      subst same
      simp [Transaction.Refused] at refused
  | phaseOne id' unset =>
      obtain ⟨current, committing, remNodes, vote, there, stage, ⟨-, rfl⟩ |
        ⟨server', nodes, vote', remain, handled, replied, rfl⟩⟩ := phaseOne_cases stepped
      · refine own rfl (fun there _ => ⟨_, there, rfl, rfl, rfl, .inl refused⟩) fun is same => ?_
        subst is same
        refine ⟨current, there, rfl, rfl, rfl, .inl ?_⟩
        simp only [Transaction.Refused, stage] at refused ⊢
        obtain ⟨rfl, against⟩ := refused
        exact ⟨rfl, by simpa using against⟩
      · refine own rfl (fun there _ => ⟨_, there, rfl, rfl, rfl, .inl refused⟩) fun is same => ?_
        subst is same
        refine ⟨current, there, rfl, rfl, rfl, ?_⟩
        simp only [Transaction.Refused, Bool.and_eq_false_iff] at refused
        obtain ⟨rfl, old | rfl⟩ := refused
        · exact .inl (by simp [Transaction.Refused, stage, old])
        · exact .inr ⟨_, _, _, _, _, _, stage, remain, handled, replied⟩
  | phaseTwo id' =>
      obtain ⟨current, committing, vote, remNodes, there, stage, ⟨-, rfl⟩ |
        ⟨server', nodes, -, -, -, rfl⟩⟩ := phaseTwo_cases stepped <;>
      · refine own rfl (fun there _ => ⟨_, there, rfl, rfl, rfl, .inl refused⟩) fun is same => ?_
        subst is same
        refine ⟨current, there, rfl, rfl, rfl, .inl ?_⟩
        simpa [Transaction.Refused, stage] using refused

/-! ## Runs -/

/-- In a run of the world, whoever is refused a lock has written a key twice or is overtaken. -/
theorem overtaken_of_refused
    (trace : Trace (World.step getNode) Unshared .first moves world)
    (present : world.transactions id = some transaction) (refused : transaction.Refused) :
    ¬ (writtenKeys (program moves id)).Nodup ∨ world.Overtaken moves transaction := by
  induction trace generalizing id transaction with
  | refl => simp [World.first] at present
  | @tail moves world world' move earlier unshared stepped ih =>
      have coherent := coherent_of_reach (earlier.reach.mono fun _ _ => Unshared.distinctStarts)
      have idle : world.transactions world.begun = none :=
        not_not.1 fun some' => Nat.lt_irrefl _ (coherent.begun _ some')
      obtain ⟨state, steps, -, mirrors⟩ :=
        exists_protocol (earlier.mono fun _ _ => Unshared.soleAborts)
      obtain ⟨current, there, pendWrites, startTs, silent, cases⟩ :=
        refused_cases stepped present refused
      -- A reason that there has been is still one.
      suffices reason : ¬ (writtenKeys (program moves id)).Nodup ∨ world.Overtaken moves current by
        refine reason.imp (fun twice => ?_) fun overtaken => ?_
        · rwa [program_append, silent, Option.toList_none, List.append_nil]
        · obtain ⟨key, other, reader, wrote, rest⟩ := overtaken.step idle stepped
          exact ⟨key, other, reader, pendWrites ▸ wrote, startTs ▸ rest⟩
      rcases cases with before | ⟨_, _, _, _, _, _, stage, remain, handled, replied⟩
      · exact ih there before
      · refine or_iff_not_imp_left.2 fun distinct => ?_
        exact exists_overtaking coherent (Sound.of_steps steps) (Attributed.of_steps steps) mirrors
          (apart_of_reach earlier.reach) (writeNodes_of_reach earlier.reach there) there stage
          remain handled replied (not_not.1 distinct)

/-! ## Clients and server -/

/-- `commit` has been refused a lock, as far as the Coordinator knows. -/
def Refused (coordinator : Coordinator) : Prop :=
  match coordinator.control with
  | .phaseTwo committing vote _ | .ended committing vote => committing = true ∧ vote = false
  | .ready | .reading _ _ | .writing _ | .phaseOne _ _ => False

instance (coordinator : Coordinator) : Decidable (Refused coordinator) :=
  match coordinator with
  | ⟨_, _, _, _, _, .phaseTwo committing vote _, _⟩ | ⟨_, _, _, _, _, .ended committing vote, _⟩ =>
      inferInstanceAs (Decidable (committing = true ∧ vote = false))
  | ⟨_, _, _, _, _, .ready, _⟩ | ⟨_, _, _, _, _, .reading _ _, _⟩
  | ⟨_, _, _, _, _, .writing _, _⟩ | ⟨_, _, _, _, _, .phaseOne _ _, _⟩ =>
      inferInstanceAs (Decidable False)

variable {system : System} {labels : List Label} {names : Equiv.Perm Nat} {process : Nat}
  {coordinator : Coordinator} {waiting : List (Operation Nat String)}

/-- The transaction of a Coordinator that has been refused a lock has been refused it. -/
theorem Follows.of_refused {names : Nat → Nat}
    (follows : Follows system names world id coordinator waiting)
    (refused : Refused coordinator) :
    ∃ transaction, world.transactions id = some transaction ∧ transaction.Refused ∧
      transaction.pendWrites = coordinator.pendWrites ∧
      transaction.startTs = coordinator.startTs ∧ waiting = [] := by
  cases follows with
  | ready control | readAsked control | writeAsked control | readServed control
  | writeServed control | phaseOne control | phaseOneServed control =>
      simp [Refused, control] at refused
  | phaseTwo control _ stands | phaseTwoServed control _ _ _ stands | ended control stands =>
      refine ⟨_, stands, ?_, rfl, rfl, rfl⟩
      simpa [Refused, control, Transaction.Refused, transactionOf] using refused

/--
In every run in which no abort unlocks a shared lock, `commit` fails for one of
two reasons only.  The transaction has written a key more than once, or a
Coordinator with a later start timestamp has been asked to read one of the keys
that it has written.
-/
theorem conflict_of_refused
    (trace : Trace (System.step getNode) Isolated (.first .initial) labels system)
    (present : system.coordinators id = some (process, coordinator))
    (refused : Refused coordinator) :
    ¬ (writtenKeys (requested labels id)).Nodup ∨
      ∃ key other process' reader, coordinator.pendWrites key ≠ none ∧
        system.coordinators other = some (process', reader) ∧
        coordinator.startTs < reader.startTs ∧ .read key ∈ requested labels other := by
  obtain ⟨moves, world, names, state, trace', refines, -⟩ := exists_refines trace
  obtain ⟨waiting, follows, whole⟩ := refines.follows id process coordinator present
  obtain ⟨transaction, there, refused', pendWrites, startTs, rfl⟩ := follows.of_refused refused
  rw [List.append_nil] at whole
  refine (overtaken_of_refused trace' there refused').imp (fun twice => whole ▸ twice)
    fun overtaken => ?_
  obtain ⟨key, other, current, wrote, present', later, asked⟩ := overtaken
  obtain ⟨process', reader, there', -, startTs'⟩ := refines.of_present present'
  obtain ⟨waiting, -, whole'⟩ := refines.follows other process' reader there'
  exact ⟨key, other, process', reader, pendWrites ▸ wrote, there', startTs ▸ startTs' ▸ later,
    whole' ▸ List.mem_append_left _ asked⟩

/-- A transaction at 20 reads a key that one at 10 has written and not yet locked. -/
theorem conflict_of_refused_of_two :
    ∃ (system : System) (labels : List Label) (coordinator : Coordinator),
      coordinator.startTs = 10 ∧ requested labels 0 = [.write 1 "a"] ∧
      ∃ key other process reader, coordinator.pendWrites key ≠ none ∧
        system.coordinators other = some (process, reader) ∧ 10 < reader.startTs ∧
        .read key ∈ requested labels other := by
  obtain ⟨system, trace, holds⟩ := exists_trace_of_admits Isolated
    [.start 0 7 10, .start 1 8 20, .write 0 1 "a", .handle 1 0 false, .receive 0 1, .read 1 1,
      .handle 2 1 false, .receive 1 2, .commit 0, .turn 0, .handle 3 0 false, .receive 0 3,
      .turn 0, .turn 0, .handle 4 0 false, .receive 0 4, .turn 0]
    (fun system : System => (system.coordinators 0).any fun owner : Nat × Coordinator =>
      decide (Refused owner.2 ∧ owner.2.startTs = 10))
    (show admits (System.step getNode) _ (.first .initial) _ = true by decide)
    (show ends (System.step getNode) _ (.first .initial) _ = true by decide)
  simp only [Option.any_eq_true, decide_eq_true_eq] at holds
  obtain ⟨owner, present, refused, startTs⟩ := holds
  have conflict := (conflict_of_refused trace present refused).resolve_left (not_not.2 (by decide))
  rw [startTs] at conflict
  exact ⟨system, _, owner.2, startTs, rfl, conflict⟩

end Mvtx.Cluster
