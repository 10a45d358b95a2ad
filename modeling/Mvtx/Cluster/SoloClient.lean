import Mvtx.Cluster.Rpc
import Mvtx.Cluster.Solo

/-!
# A transaction that runs alone, with its client

The calls of a transaction that runs alone go through `syncRPC`, which follows
the unset pointer to the value of a read that the server has answered.  So the
transaction comes to the end of `commit` just if it has asked the server for
nothing and has written no key twice, and nobody can read afterwards what it has
written, although the server has it.
-/

namespace Mvtx.Cluster

open Lib Server Client

/-! ## Steps of a client -/

/--
A transaction that is between two calls, once `syncRPC` has filled in the record
of its last read; the record then holds what the server has replied.
-/
def World.collect (world : World) (id : Nat) : Except Halt Transaction :=
  match world.transactions id with
  | none => .error .disabled
  | some transaction =>
      match transaction.stage with
      | .reading rid key _ =>
          match world.server.replies rid with
          | none => .error .disabled
          | some reply =>
              match syncRPC (serviceOf reply)
                (recordOf (.read transaction.tid transaction.startTs key)) with
              | .error fault => .error (.fault fault)
              | .ok _ => world.ready id
      | _ => world.ready id

/-- The transaction that a step calls. -/
def Move.caller : Move → Option Nat
  | .read id _ _ | .write id _ _ | .finish id _ => some id
  | .start .. | .phaseOne .. | .phaseTwo .. => none

/-- Take a step; a call is made once the last read has returned. -/
def World.clientStep (getNode : Nat → Nat) (world : World) (move : Move) : Except Halt World :=
  match move.caller with
  | none => world.step getNode move
  | some id => do
      let _ ← world.collect id
      world.step getNode move

variable {mapper : Nat → Nat} {world world' : World} {id event : Nat} {move : Move}
  {accesses : List Access}

theorem step_of_clientStep (stepped : world.clientStep mapper move = .ok world') :
    world.step mapper move = .ok world' := by
  unfold World.clientStep at stepped
  split at stepped
  · exact stepped
  · obtain ⟨-, -, stepped⟩ := exists_of_bind stepped
    exact stepped

theorem run_of_clientStep {moves : List Move}
    (ran : run (World.clientStep mapper) world moves = .ok world') :
    run (World.step mapper) world moves = .ok world' := by
  induction moves generalizing world with
  | nil => exact ran
  | cons move moves ih =>
      rw [run] at ran ⊢
      split at ran
      · next middle stepped =>
          rw [step_of_clientStep stepped]
          exact ih ran
      · exact absurd ran (by simp)

theorem reach_of_clientStep {allowed : World → Move → Prop}
    (reached : Reach (World.clientStep mapper) allowed world world') :
    Reach (World.step mapper) allowed world world' := by
  induction reached with
  | refl => exact .refl
  | tail earlier permitted stepped ih =>
      exact .tail ih permitted (step_of_clientStep stepped)

theorem CommitsAlone.of_clientStep {process tid startTs : Nat} {ended : World}
    (commits : CommitsAlone (World.clientStep mapper) world process tid startTs accesses ended) :
    CommitsAlone (World.step mapper) world process tid startTs accesses ended := by
  obtain ⟨called, transaction, ran, closed, stands⟩ := commits
  exact ⟨called, transaction, run_of_clientStep ran, reach_of_clientStep closed, stands⟩

/-! ## Where the client goes on -/

/-- A transaction waits for no read. -/
def Calm (world : World) (id : Nat) : Prop :=
  ∀ transaction ∈ world.transactions id, ∀ rid key node,
    transaction.stage ≠ .reading rid key node

theorem Calm.store {transaction : Transaction}
    (stage : ∀ rid key node, transaction.stage ≠ .reading rid key node) :
    Calm (world.store id transaction) id := by
  intro current present
  obtain rfl := Option.some.inj ((World.store_self ..).symm.trans present)
  exact stage

theorem Calm.after {transaction : Transaction} {server' : SimpleTServer}
    {more : List (Nat × Request)}
    (stage : ∀ rid key node, transaction.stage ≠ .reading rid key node) :
    Calm (world.after server' id transaction more) id := by
  intro current present
  obtain rfl := Option.some.inj (World.after_self.symm.trans present)
  exact stage

theorem Calm.collect (calm : Calm world id) : world.collect id = world.ready id := by
  unfold World.collect
  split
  · next absent => simp [World.ready, absent]
  · next transaction present =>
      split
      · next rid key node stage => exact absurd stage (calm transaction present rid key node)
      · rfl

/-- A step that calls a transaction finds it between two calls. -/
theorem exists_ready_of_caller (stepped : world.step mapper move = .ok world')
    (caller : move.caller = some id) : ∃ transaction, world.ready id = .ok transaction := by
  cases move with
  | start | phaseOne | phaseTwo => simp [Move.caller] at caller
  | read other key event =>
      obtain rfl : other = id := by simpa [Move.caller] using caller
      obtain ⟨transaction, found, -⟩ := read_cases stepped
      exact ⟨transaction, found⟩
  | write other key value =>
      obtain rfl : other = id := by simpa [Move.caller] using caller
      obtain ⟨transaction, -, found, -⟩ := write_cases stepped
      exact ⟨transaction, found⟩
  | finish other committing =>
      obtain rfl : other = id := by simpa [Move.caller] using caller
      obtain ⟨transaction, found, -⟩ := finish_cases stepped
      exact ⟨transaction, found⟩

theorem clientStep_of_step (calm : ∀ id, move.caller = some id → Calm world id)
    (stepped : world.step mapper move = .ok world') :
    world.clientStep mapper move = .ok world' := by
  unfold World.clientStep
  split
  · exact stepped
  · next id caller =>
      obtain ⟨transaction, found⟩ := exists_ready_of_caller stepped caller
      rw [(calm id caller).collect, found]
      exact stepped

theorem Calm.commits (permitted : Move.Commits id move)
    (stepped : world.step mapper move = .ok world') : Calm world' id := by
  cases move with
  | start | read | write => exact permitted.elim
  | finish other committing =>
      obtain ⟨rfl, -⟩ := permitted
      obtain ⟨transaction, -, rfl⟩ := finish_cases stepped
      exact .store (by simp)
  | phaseOne other unset =>
      obtain rfl : other = id := permitted
      obtain ⟨transaction, committing, remNodes, vote, -, -,
        ⟨-, rfl⟩ | ⟨server', nodes, vote', -, -, -, rfl⟩⟩ := phaseOne_cases stepped
      · exact .store (by simp)
      · exact .after (by simp)
  | phaseTwo other =>
      obtain rfl : other = id := permitted
      obtain ⟨transaction, committing, vote, remNodes, -, -,
        ⟨-, rfl⟩ | ⟨server', nodes, -, -, -, rfl⟩⟩ := phaseTwo_cases stepped
      · exact .store (by simp)
      · exact .after (by simp)

/-- Where no read is waited for, `commit` goes on with its client as it does without. -/
theorem Calm.reach (calm : Calm world id)
    (closed : Reach (World.step mapper) (fun _ move => Move.Commits id move) world world') :
    Calm world' id ∧
      Reach (World.clientStep mapper) (fun _ move => Move.Commits id move) world world' := by
  induction closed with
  | refl => exact ⟨calm, .refl⟩
  | @tail middle last move earlier permitted stepped ih =>
      obtain ⟨calm', closed'⟩ := ih
      refine ⟨.commits permitted stepped, closed'.tail permitted (clientStep_of_step ?_ stepped)⟩
      intro other caller
      cases move with
      | start | read | write => exact permitted.elim
      | phaseOne | phaseTwo => simp [Move.caller] at caller
      | finish =>
          obtain ⟨rfl, -⟩ := permitted
          obtain rfl := Option.some.inj caller
          exact calm'

/-! ## Where the client faults -/

/-- A transaction waits for a read that the server has answered with a value. -/
def Stuck (world : World) (id : Nat) : Prop :=
  ∃ transaction rid key node value, world.transactions id = some transaction ∧
    transaction.stage = .reading rid key node ∧
    world.server.replies rid = some (.read value true)

theorem Stuck.exists_reading (stuck : Stuck world id) :
    ∃ transaction rid key node, world.transactions id = some transaction ∧
      transaction.stage = .reading rid key node := by
  obtain ⟨transaction, rid, key, node, -, present, stage, -⟩ := stuck
  exact ⟨transaction, rid, key, node, present, stage⟩

theorem Stuck.collect (stuck : Stuck world id) :
    world.collect id = .error (.fault .nullDereference) := by
  obtain ⟨transaction, rid, key, node, value, present, stage, replied⟩ := stuck
  simp only [World.collect, present, stage, replied]
  rfl

/-- The transaction is not called again. -/
theorem Stuck.not_called (stuck : Stuck world id) (caller : move.caller = some id) :
    world.clientStep mapper move ≠ .ok world' := by
  rw [World.clientStep, caller]
  simp [stuck.collect, bind, Except.bind]

theorem Stuck.not_commits (stuck : Stuck world id) (permitted : Move.Commits id move) :
    world.clientStep mapper move ≠ .ok world' := by
  obtain ⟨transaction, rid, key, node, present, reading⟩ := stuck.exists_reading
  intro stepped
  cases move with
  | start | read | write => exact permitted.elim
  | finish other committing =>
      obtain ⟨rfl, -⟩ := permitted
      exact stuck.not_called rfl stepped
  | phaseOne other unset =>
      obtain rfl : other = id := permitted
      obtain ⟨_, _, _, _, there, stage, -⟩ := phaseOne_cases (step_of_clientStep stepped)
      obtain rfl := Option.some.inj (there.symm.trans present)
      simp [reading] at stage
  | phaseTwo other =>
      obtain rfl : other = id := permitted
      obtain ⟨_, _, _, _, there, stage, -⟩ := phaseTwo_cases (step_of_clientStep stepped)
      obtain rfl := Option.some.inj (there.symm.trans present)
      simp [reading] at stage

/-- `commit` gets nowhere. -/
theorem Stuck.reach (stuck : Stuck world id)
    (closed : Reach (World.clientStep mapper) (fun _ move => Move.Commits id move) world world') :
    world' = world := by
  induction closed with
  | refl => rfl
  | tail earlier permitted stepped ih =>
      subst ih
      exact absurd stepped (stuck.not_commits permitted)

/-! ## The calls of a transaction that runs alone -/

section Calls

open Progress

/-- A key that is read before it is written is asked for. -/
theorem Progress.asked_of_unwritten {progress : Progress} {key : Nat}
    (unwritten : lastWrite progress.writes key = none) :
    key ∈ (progress.after (.read key event :: accesses)).asked := by
  have asked : key ∈ (progress.next (.read key event)).asked := by
    simp [Progress.next, unwritten]
  exact asked_after _ accesses asked

theorem Progress.writes_after (progress : Progress) (accesses : List Access) :
    progress.writes <+: (progress.after accesses).writes := by
  induction accesses generalizing progress with
  | nil => exact List.prefix_rfl
  | cons access accesses ih =>
      refine List.IsPrefix.trans ?_ (ih (progress.next access))
      cases access with
      | write key value => exact List.prefix_append ..
      | read key event =>
          rw [Progress.next]
          split <;> exact List.prefix_rfl

variable {base : SimpleTServer} {tid startTs : Nat} {progress : Progress}
  {returned : List (Nat × Option String)}

theorem Solo.startTs_eq (solo : Solo base world id tid startTs progress returned) :
    ∀ transaction ∈ world.transactions id, transaction.startTs = startTs := by
  intro transaction there
  obtain ⟨-, current, proceeds, -⟩ := proceeds_ready solo.ready
  obtain rfl := Option.some.inj (there.symm.trans proceeds.present)
  exact proceeds.startTs.symm

/-- After a read that has been asked for the transaction is stuck. -/
theorem Solo.stuck (solo : Solo base world id tid startTs progress returned) {key : Nat}
    (unwritten : lastWrite progress.writes key = none)
    (stepped : world.step mapper (.read id key event) = .ok world')
    (solo' : Solo base world' id tid startTs (progress.next (.read key event))
      (returned ++ progress.answer (base.lastVersion startTs) (.read key event))) :
    Stuck world' id := by
  have known : base.lastVersion startTs key ≠ none :=
    solo'.versions key (by simp [Progress.next, unwritten])
  obtain ⟨transaction, found, ⟨value, written, -⟩ | ⟨server', -, -, -, rfl⟩⟩ := read_cases stepped
  · obtain rfl := Except.ok.inj (solo.ready.symm.trans found)
    exact absurd (unwritten.symm.trans written) (by simp)
  · obtain rfl := Except.ok.inj (solo.ready.symm.trans found)
    obtain ⟨active, current, proceeds, collected⟩ := proceeds_ready solo'.ready
    rcases collected with same | ⟨rid, key', node, value, status, stage, replied, same⟩
    · obtain rfl := Option.some.inj (World.after_self.symm.trans proceeds.present)
      exact absurd (congrArg Transaction.stage same) (by simp [active])
    · have there := proceeds.present
      obtain rfl := Option.some.inj (World.after_self.symm.trans there)
      have last := congrArg Transaction.returned same
      obtain rfl : status = true := by
        cases status
        · simp [Progress.transaction, Progress.answer, unwritten, known] at last
        · rfl
      exact ⟨_, rid, key', node, value, there, stage, replied⟩

@[simp]
theorem Access.caller_move (access : Access) : (access.move id).caller = some id := by
  cases access <;> rfl

/-- A program that is stuck has come to its end. -/
theorem Stuck.run_accesses (stuck : Stuck world id)
    (ran : run (World.clientStep mapper) world (accesses.map (Access.move id)) = .ok world') :
    world' = world := by
  cases accesses with
  | nil => exact (Except.ok.inj ran).symm
  | cons access accesses =>
      rw [List.map_cons, run] at ran
      split at ran
      · next middle stepped => exact absurd stepped (stuck.not_called access.caller_move)
      · exact absurd ran (by simp)

/-- A program whose calls all return has asked for nothing, or is stuck. -/
theorem Solo.clientAccesses (solo : Solo base world id tid startTs progress returned)
    (idle : base.lockManager.Idle startTs) (positive : 1 ≤ startTs) (bound : startTs ≤ uintMax)
    (fresh : Solo.Fresh world.server accesses)
    (ran : run (World.clientStep getNode) world (accesses.map (Access.move id)) = .ok world') :
    Reach (World.step getNode) TimelyStarts world world' ∧
      ((progress.after accesses).asked = progress.asked ∨ Stuck world' id) := by
  induction accesses generalizing world progress returned with
  | nil =>
      obtain rfl := Except.ok.inj ran
      exact ⟨.refl, .inl rfl⟩
  | cons access accesses ih =>
      rw [List.map_cons, run] at ran
      split at ran
      · next middle clientStepped =>
          have stepped := step_of_clientStep clientStepped
          obtain ⟨solo', fresh'⟩ := solo.of_step idle positive bound fresh stepped
          obtain ⟨reached, outcome⟩ := ih solo' fresh' ran
          have timely : TimelyStarts world (access.move id) := by
            cases access with
            | read key event =>
                intro transaction there _
                exact solo.startTs_eq transaction there ▸ positive
            | write key value => trivial
          refine ⟨(Reach.tail .refl timely stepped).trans reached, ?_⟩
          cases access with
          | write key value => exact outcome
          | read key event =>
              cases written : lastWrite progress.writes key with
              | some value =>
                  exact outcome.imp_left fun kept => kept.trans (by simp [Progress.next, written])
              | none =>
                  have stuck := solo.stuck written stepped solo'
                  exact .inr (stuck.run_accesses ran ▸ stuck)
      · exact absurd ran (by simp)

/-- A program that asks for nothing runs with its client as it does without. -/
theorem Solo.calmAccesses (solo : Solo base world id tid startTs progress returned)
    (idle : base.lockManager.Idle startTs) (positive : 1 ≤ startTs) (bound : startTs ≤ uintMax)
    (fresh : Solo.Fresh world.server accesses) (calm : Calm world id)
    (unasked : (progress.after accesses).asked = ∅)
    (ran : run (World.step getNode) world (accesses.map (Access.move id)) = .ok world') :
    run (World.clientStep getNode) world (accesses.map (Access.move id)) = .ok world' ∧
      Calm world' id := by
  induction accesses generalizing world progress returned with
  | nil =>
      obtain rfl := Except.ok.inj ran
      exact ⟨rfl, calm⟩
  | cons access accesses ih =>
      rw [List.map_cons, run] at ran
      split at ran
      · next middle stepped =>
          obtain ⟨solo', fresh'⟩ := solo.of_step idle positive bound fresh stepped
          have calm' : Calm middle id := by
            cases access with
            | write key value =>
                obtain ⟨transaction, server', found, -, rfl⟩ := write_cases stepped
                exact .after (by simp [(proceeds_ready found).1])
            | read key event =>
                obtain ⟨transaction, found, ⟨value, -, rfl⟩ | ⟨server', unwritten, -⟩⟩ :=
                  read_cases stepped
                · exact .store (by simp [(proceeds_ready found).1])
                · obtain rfl := Except.ok.inj (solo.ready.symm.trans found)
                  have asked : key ∈ (progress.after (.read key event :: accesses)).asked :=
                    asked_of_unwritten unwritten
                  simp [unasked] at asked
          rw [List.map_cons, run, clientStep_of_step (fun other caller => ?_) stepped]
          · exact ih solo' fresh' calm' unasked ran
          · obtain rfl := Option.some.inj (access.caller_move.symm.trans caller)
            exact calm
      · exact absurd ran (by simp)

/-- A transaction that has neither asked nor written has made no call. -/
theorem eq_nil_of_after (unasked : (Progress.start.after accesses).asked = ∅)
    (unwritten : (Progress.start.after accesses).writes = []) : accesses = [] := by
  cases accesses with
  | nil => rfl
  | cons access accesses =>
      cases access with
      | read key event =>
          have asked : key ∈ (Progress.start.after (.read key event :: accesses)).asked :=
            asked_of_unwritten rfl
          simp [unasked] at asked
      | write key value =>
          have kept := (Progress.start.next (.write key value)).writes_after accesses
          rw [show ((Progress.start.next (.write key value)).after accesses).writes = [] from
            unwritten, List.prefix_nil] at kept
          simp [Progress.next] at kept

end Calls

/-! ## Commits with a client -/

/-- There is an address without a read event. -/
theorem Owed.exists_unused (owed : Owed world) :
    ∃ event, world.server.readEvents event = none := by
  by_contra none'
  have made : ∀ event, ∃ state, world.server.readEvents event = some state := by
    intro event
    exact Option.ne_none_iff_exists'.1 fun absent => none' ⟨event, absent⟩
  choose state present using made
  have settled := owed.settled uintMax (by decide) le_rfl owed.timely
  -- Each event has a request of its own, and only so many have been handled.
  refine not_injective_infinite_finite
    (fun event => (⟨(state event).rid, Nat.lt_succ_of_le
      (owed.events event _ (present event)).1⟩ : Fin (world.sent + 1))) ?_
  intro event event' same
  exact settled.distinct event event' _ _ (present event) (present event')
    (congrArg Fin.val same)

/--
A transaction begins, makes its calls and commits, with nobody else taking a
step; `commit` returns true, and later transactions read its last writes.
-/
def World.KeepsPromise (world : World) (process tid startTs : Nat) (accesses : List Access) :
    Prop :=
  ∃ ended, CommitsAlone (World.clientStep getNode) world process tid startTs accesses ended ∧
    ReadsBack (World.clientStep getNode) World.collect ended startTs
      (Progress.start.after accesses).writes

section Commits

variable {process tid startTs : Nat} {ended : World}

theorem Calm.start (begun : world.step mapper (.start process tid startTs) = .ok world') :
    Calm world' world.begun := by
  obtain rfl := Except.ok.inj begun
  intro transaction present
  obtain rfl : Transaction.new tid startTs = transaction := by simpa using present
  simp [Transaction.new]

/-- A transaction alone that has committed with its client has asked for nothing. -/
theorem CommitsAlone.unasked
    (commits : CommitsAlone (World.clientStep getNode) world process tid startTs accesses ended)
    (quiet : world.server.Quiet startTs world.sent) (positive : 1 ≤ startTs)
    (bound : startTs < uintMax) (fresh : Solo.Fresh world.server accesses) :
    (Progress.start.after accesses).asked = ∅ ∧
      Reach (World.step getNode) TimelyStarts world ended := by
  obtain ⟨world₁, begun, same, solo⟩ := Solo.start process tid quiet (Nat.le_refl startTs)
  obtain ⟨called, transaction, ran, closed, there, stage⟩ := commits
  rw [run, show world.clientStep getNode (.start process tid startTs) = .ok world₁ from begun]
    at ran
  obtain ⟨reached, unasked | stuck⟩ :=
    solo.clientAccesses quiet.idle positive bound.le (same ▸ fresh) ran
  · refine ⟨unasked, ?_⟩
    have first : Reach (World.step getNode) TimelyStarts world world₁ :=
      .tail .refl (show TimelyStarts world (.start process tid startTs) from bound) begun
    refine (first.trans reached).trans ?_
    refine (reach_of_clientStep closed).mono fun _ move permitted => ?_
    cases move with
    | start | read | write => exact permitted.elim
    | finish | phaseOne | phaseTwo => trivial
  · obtain rfl := stuck.reach closed
    obtain ⟨current, rid, key, node, present, reading⟩ := stuck.exists_reading
    obtain rfl := Option.some.inj (there.symm.trans present)
    simp [reading] at stage

/-- A transaction alone that asks for nothing and writes no key twice commits. -/
theorem exists_commitsAlone_of_unasked (quiet : world.server.Quiet startTs world.sent)
    (positive : 1 ≤ startTs) (bound : startTs < uintMax)
    (fresh : Solo.Fresh world.server accesses)
    (unasked : (Progress.start.after accesses).asked = ∅)
    (once : ((Progress.start.after accesses).writes.map (·.1)).Nodup) (process tid : Nat) :
    ∃ ended, CommitsAlone (World.clientStep getNode) world process tid startTs accesses ended := by
  have clear : (Progress.start.after accesses).Clear world.server startTs :=
    { once := once
      versions := by simp [unasked]
      unblocked := by simp [Progress.Unblocked, unasked] }
  obtain ⟨ended, called, transaction, ran, closed, stands⟩ :=
    clear.commitsAlone quiet positive bound fresh process tid
  obtain ⟨world₁, begun, same, solo⟩ := Solo.start process tid quiet (Nat.le_refl startTs)
  rw [run, begun] at ran
  obtain ⟨ran', calm⟩ := solo.calmAccesses quiet.idle positive bound.le (same ▸ fresh)
    (.start begun) unasked ran
  refine ⟨ended, called, transaction, ?_, (calm.reach closed).2, stands⟩
  rw [run, show world.clientStep getNode (.start process tid startTs) = .ok world₁ from begun]
  exact ran'

/-- The client of whoever reads a key that has been written faults. -/
theorem Committed.not_readsBack {base : SimpleTServer} {progress : Progress}
    (committed : Committed base ended startTs progress) (bound : startTs < uintMax)
    (unused : ∃ event, ended.server.readEvents event = none) (some' : progress.writes ≠ []) :
    ¬ ReadsBack (World.clientStep getNode) World.collect ended startTs progress.writes := by
  intro reads
  obtain ⟨⟨key, value⟩, written⟩ := List.exists_mem_of_ne_nil _ some'
  obtain ⟨event, none'⟩ := unused
  have fresh : Solo.Fresh ended.server ([(key, event)].map readOf) :=
    ⟨by simp [readOf, Access.event], by simpa [readOf, Access.event] using none'⟩
  obtain ⟨world', transaction, ran, collected, -⟩ :=
    reads 0 0 (startTs + 1) [(key, event)] (Nat.lt_succ_self _) bound fresh
      (by simpa using ⟨value, written⟩)
  obtain ⟨world₁, begun, same, solo⟩ :=
    Solo.start 0 0 (committed.quiet some') (Nat.le_refl (startTs + 1))
  rw [run, show ended.clientStep getNode (.start 0 0 (startTs + 1)) = .ok world₁ from begun] at ran
  obtain ⟨-, unasked | stuck⟩ := solo.clientAccesses (committed.quiet some').idle
    (Nat.le_add_left 1 startTs) bound (same ▸ fresh) ran
  · have asked : key ∈ (Progress.start.after [.read key event]).asked :=
      Progress.asked_of_unwritten rfl
    rw [show (Progress.start.after [.read key event]).asked = ∅ from unasked] at asked
    exact absurd asked (Finset.notMem_empty key)
  · rw [stuck.collect] at collected
    exact absurd collected (by simp)

/--
On every server that finished transactions have left, a transaction alone with a
later start timestamp keeps the promise only if it makes no call at all.
`commit` returns true just if the transaction has asked the server for no key
and has written no key twice: its client faults at the answer to a read, and the
second write of a key is refused the lock that the first one has taken.  The
server then answers later reads with the last writes, but their clients fault.
-/
theorem keepsPromise_iff
    (reached : Reach (World.step getNode) TimelyStarts .first world)
    (finished : ∀ id transaction, world.transactions id = some transaction →
      (∃ committing vote, transaction.stage = .ended committing vote) ∧
        transaction.startTs < startTs)
    (positive : 1 ≤ startTs) (bound : startTs < uintMax)
    (fresh : Solo.Fresh world.server accesses) :
    (world.KeepsPromise process tid startTs accesses ↔ accesses = []) ∧
      ((∃ ended,
          CommitsAlone (World.clientStep getNode) world process tid startTs accesses ended) ↔
        (Progress.start.after accesses).asked = ∅ ∧
          ((Progress.start.after accesses).writes.map (·.1)).Nodup) ∧
      ∀ ended,
        CommitsAlone (World.clientStep getNode) world process tid startTs accesses ended →
        ReadsBack (World.step getNode) World.ready ended startTs
          (Progress.start.after accesses).writes := by
  have quiet := (owed_of_reach reached).quiet positive bound.le finished
  refine ⟨⟨?_, ?_⟩, ⟨?_, ?_⟩, ?_⟩
  · rintro ⟨ended, commits, reads⟩
    obtain ⟨unasked, further⟩ := commits.unasked quiet positive bound fresh
    obtain ⟨-, committed⟩ := commits.of_clientStep.clear quiet positive bound fresh
    by_contra called
    exact committed.not_readsBack bound (owed_of_reach (reached.trans further)).exists_unused
      (fun unwritten => called (eq_nil_of_after unasked unwritten)) reads
  · rintro rfl
    obtain ⟨ended, commits⟩ := exists_commitsAlone_of_unasked quiet positive bound fresh rfl
      List.nodup_nil process tid
    refine ⟨ended, commits, fun process' tid' later reads _ _ _ written => ?_⟩
    obtain rfl : reads = [] :=
      List.eq_nil_iff_forall_not_mem.2 fun read member => by
        simpa [Progress.after, Progress.start] using written read member
    refine ⟨_, .new tid' later, rfl, ?_, rfl⟩
    have begun : ended.step getNode (.start process' tid' later) = .ok _ := rfl
    rw [(Calm.start begun).collect]
    simp [World.ready, Transaction.new]
  · rintro ⟨ended, commits⟩
    exact ⟨(commits.unasked quiet positive bound fresh).1,
      (commits.of_clientStep.clear quiet positive bound fresh).1.once⟩
  · rintro ⟨unasked, once⟩
    exact exists_commitsAlone_of_unasked quiet positive bound fresh unasked once process tid
  · intro ended commits
    exact (commits.of_clientStep.clear quiet positive bound fresh).2.readsBack positive

/-- A transaction that writes two keys and reads one back commits, in vain. -/
theorem keepsPromise_iff_of_three_accesses :
    ¬ World.first.KeepsPromise 0 7 10 [.write 3 "a", .read 3 0, .write 4 "b"] ∧
      ∃ ended, CommitsAlone (World.clientStep getNode) World.first 0 7 10
          [.write 3 "a", .read 3 0, .write 4 "b"] ended ∧
        ReadsBack (World.step getNode) World.ready ended 10 [(3, "a"), (4, "b")] := by
  obtain ⟨keeps, commits, reads⟩ :=
    @keepsPromise_iff World.first [.write 3 "a", .read 3 0, .write 4 "b"] 0 7 10 .refl
      (by simp [World.first]) (by decide) (by decide) ⟨by decide, fun _ _ => rfl⟩
  obtain ⟨ended, committed⟩ := commits.2 ⟨by decide, by decide⟩
  exact ⟨by simp [keeps], ended, committed, reads ended committed⟩

/-- A transaction that writes one key twice does not commit, whatever its client does. -/
theorem not_keepsPromise_of_two_writes :
    (∀ ended, ¬ CommitsAlone (World.step getNode) World.first 0 7 10
        [.write 3 "a", .write 3 "b"] ended) ∧
      ¬ World.first.KeepsPromise 0 7 10 [.write 3 "a", .write 3 "b"] := by
  have quiet : World.first.server.Quiet 10 World.first.sent :=
    Owed.first.quiet (by decide) (by decide) (by simp [World.first])
  have refused : ∀ ended, ¬ CommitsAlone (World.step getNode) World.first 0 7 10
      [.write 3 "a", .write 3 "b"] ended := fun ended commits =>
    absurd (commits.clear quiet (by decide) (by decide) ⟨by decide, fun _ _ => rfl⟩).1.once
      (by decide)
  refine ⟨refused, ?_⟩
  rintro ⟨ended, commits, -⟩
  exact refused ended commits.of_clientStep

end Commits

end Mvtx.Cluster
