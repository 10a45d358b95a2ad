import Mvtx.Cluster.Snapshot
import Mvtx.Cluster.Solo

/-!
# Nothing is left behind

When all Coordinators have ended the server keeps nothing for any of them: no
lock, no record of one, no pending write, no read that waits, and no mutex.
What `unlock` does to locks that are shared makes no difference here.
-/

namespace Mvtx.Cluster

open Lib Lock AVLTreeLockManager Server Client

variable {system : System} {world : World} {names : Equiv.Perm Nat} {labels : List Label}
  {moves : List Move} {label : Label} {move : Move}

/-- Nothing is kept for any transaction. -/
structure AtRest (server : SimpleTServer) : Prop where
  unlocked : ∀ key, ∀ lock ∈ server.lockManager.timeline key, lock.status.held = false
  unrecorded : ∀ tid key, server.lockManager.record tid key = none
  known : ∀ tid, server.tidToNodes tid = none
  knownWrite : ∀ tid, server.tidToWriteNodes tid = none
  pendWrites : ∀ tid, server.pendWrites tid = none
  rdyToCommit : ∀ tid, server.rdyToCommit tid = none
  mutexes : server.tidMutex = false ∧ server.tidWriteMutex = false
  answered : ∀ event read, server.readEvents event = some read →
    server.replies read.rid ≠ none

/--
A Coordinator is created with an ID that no other has and a start timestamp
within the range of timestamps, and the tags of a client do not run out.
-/
def Timely (system : System) : Label → Prop
  | .start process tid startTs =>
      DistinctIds system (.start process tid startTs) ∧ 1 ≤ startTs ∧ startTs < uintMax
  | .turn id => DistinctIds system (.turn id)
  | _ => True

instance (system : System) (label : Label) : Decidable (Timely system label) :=
  match label with
  | .start process tid startTs => inferInstanceAs (Decidable
      (DistinctIds system (.start process tid startTs) ∧ 1 ≤ startTs ∧ startTs < uintMax))
  | .turn id => inferInstanceAs (Decidable (DistinctIds system (.turn id)))
  | .read _ _ | .write _ _ _ | .commit _ | .abort _ | .receive _ _ | .handle _ _ _ =>
      inferInstanceAs (Decidable True)

theorem Timely.distinctIds (timely : Timely system label) : DistinctIds system label := by
  cases label with
  | start => exact timely.1
  | turn => exact timely
  | read | write | commit | abort | receive | handle => trivial

/-- A transaction begins when its Coordinator is created. -/
theorem eq_start_of_moveOf {process tid startTs : Nat}
    (moved : system.moveOf label = some (.start process tid startTs)) :
    label = .start process tid startTs := by
  cases label with
  | start =>
      obtain ⟨rfl, rfl, rfl⟩ := Move.start.inj (Option.some.inj moved)
      rfl
  | read | turn | handle =>
      simp only [System.moveOf] at moved
      repeat' split at moved
      all_goals simp at moved
  | write | commit | abort | receive => simp [System.moveOf] at moved

/-- What is timely in the system is so in the world. -/
theorem Refines.distinctStarts (refines : Refines labels system moves world names)
    (timely : Timely system label) (moved : system.moveOf label = some move) :
    DistinctStarts world move := by
  cases move with
  | start process tid startTs =>
      obtain rfl := eq_start_of_moveOf moved
      obtain ⟨distinct, positive, bound⟩ := timely
      refine ⟨fun id below same => ?_, positive, bound⟩
      obtain ⟨transaction, present, rfl⟩ := Option.map_eq_some_iff.1 same
      obtain ⟨process, coordinator, there, tid, -⟩ := refines.of_present present
      refine distinct id (refines.begun ▸ below) ?_
      rw [there]
      exact congrArg some tid
  | read | write | finish | phaseOne | phaseTwo => trivial

/-- What the server keeps is owed to it also where IDs and start timestamps are in order. -/
theorem owed_of_distinctStarts
    (reached : Reach (World.step getNode) DistinctStarts .first world) : Owed world := by
  induction reached with
  | refl => exact .first
  | @tail world world' move earlier permitted stepped ih =>
      refine ih.step ?_ stepped
      cases move with
      | start => exact permitted.2.2
      | read => exact fun transaction present _ =>
          ((coherent_of_reach earlier).timely _ _ present).1
      | write | finish | phaseOne | phaseTwo => trivial

/--
In every run of clients and server, once all Coordinators have ended, nothing is
kept for any transaction.
-/
theorem atRest_of_trace
    (trace : Trace (System.step getNode) Timely (.first .initial) labels system)
    (ended : ∀ id process coordinator, system.coordinators id = some (process, coordinator) →
      Ended coordinator) : AtRest system.server := by
  obtain ⟨moves, world, trace', names, refines⟩ :
      ∃ moves world, Trace (World.step getNode) DistinctStarts .first moves world ∧
        ∃ names, Refines labels system moves world names :=
    Refines.of_trace (fun _ _ => Timely.distinctIds)
      (fun _ _ _ _ _ _ _ refines timely moved => refines.distinctStarts timely moved) trace
  have coherent := coherent_of_reach trace'.reach
  have finished : ∀ id transaction, world.transactions id = some transaction →
      (∃ committing vote, transaction.stage = .ended committing vote) ∧
        transaction.startTs < uintMax := by
    intro id transaction present
    obtain ⟨process, coordinator, there, -⟩ := refines.of_present present
    obtain ⟨committing, vote, control⟩ := (ended id process coordinator there).exists_control
    obtain ⟨waiting, follows, -⟩ := refines.follows id process coordinator there
    obtain rfl := Option.some.inj (present.symm.trans (follows.of_ended control))
    exact ⟨⟨committing, vote, rfl⟩, (coherent.timely id _ present).2⟩
  have quiet := (owed_of_distinctStarts trace'.reach).quiet (by decide) le_rfl finished
  have reads := coherent.wakeful.reads
  rw [refines.server] at quiet reads
  exact
    { unlocked := quiet.idle.unlocked
      unrecorded := quiet.idle.unrecorded
      known := quiet.known
      knownWrite := quiet.knownWrite
      pendWrites := quiet.pendWrites
      rdyToCommit := quiet.rdyToCommit
      mutexes := quiet.mutexes
      answered := by
        intro event read made
        have made' : (system.server.rename names).readEvents event = some (read.rename names) := by
          simp [made]
        have phase := quiet.answered event _ made'
        rcases reads event _ made' with ⟨waits, -⟩ | ⟨-, value, replied⟩
        · exact absurd (waits.phase.symm.trans phase) (by simp)
        · rw [← replies_rename names]
          exact fun none' => absurd (none'.symm.trans replied) (by simp) }

/-- One transaction has committed, and one has aborted that has shared a read lock with it. -/
theorem atRest_of_trace_of_two :
    ∃ system : System, (∃ value, system.server.get 1 10 = some value) ∧ AtRest system.server := by
  obtain ⟨system, trace, holds⟩ := exists_trace_of_admits Timely
    [.start 0 7 10, .start 1 8 20, .write 0 1 "a", .read 1 2, .handle 1 0 false,
      .receive 0 1, .handle 2 1 false, .read 0 2, .handle 3 2 false, .receive 0 3, .commit 0,
      .turn 0, .handle 4 0 false, .receive 0 4, .turn 0, .receive 1 2, .abort 1, .turn 1,
      .turn 1, .turn 0, .handle 5 0 false, .handle 6 0 false, .receive 0 6, .receive 1 5,
      .turn 1, .turn 0]
    (fun system : System => decide (system.created = 2 ∧ system.server.get 1 10 = some "a") &&
      ((List.range 2).all fun id => (system.coordinators id).any fun owner : Nat × Coordinator =>
        decide (Ended owner.2)))
    (show admits (System.step getNode) _ (.first .initial) _ = true by decide)
    (show ends (System.step getNode) _ (.first .initial) _ = true by decide)
  simp only [Bool.and_eq_true, Option.any_eq_true, List.all_eq_true, List.mem_range,
    decide_eq_true_eq] at holds
  obtain ⟨⟨created, stored⟩, ended⟩ := holds
  obtain ⟨_, _, -, _, refines⟩ := Refines.of_trace (fun _ _ => Timely.distinctIds)
    (fun _ _ _ _ _ _ _ refines timely moved => refines.distinctStarts timely moved) trace
  refine ⟨system, ⟨"a", stored⟩, atRest_of_trace trace fun id process coordinator there => ?_⟩
  have below := refines.consistent.orderly.created id (by simp [there])
  obtain ⟨owner, there', ended'⟩ := ended id (created ▸ below)
  obtain rfl := congrArg Prod.snd (Option.some.inj (there'.symm.trans there))
  exact ended'

end Mvtx.Cluster
