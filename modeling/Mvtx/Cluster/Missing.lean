import Mvtx.Cluster.Serializable
import Mvtx.Server.Faults
import Mvtx.Server.Registered

/-!
# Versions that reads find

A read returns the version at which it has stopped.  `P2CEvent::run` calls
`freeze` before `finalize`, and `freeze` runs the reads that wait for the locks;
these stop at a version that is yet to be installed, and the server dereferences a
null pointer.  As long as no read waits for a transaction that commits, each read
finds its version.

An abort that unlocks a lock which others share takes the lock from them, and one
of these may then freeze the lock of a writer that has not committed.  The runs
here have none.
-/

namespace Mvtx.Cluster

open Lib Lib.Serial Lib.Multiversion Lock AVLTreeLockManager Server SimpleTServer

/-- No read that has not been answered waits at a write lock of a transaction. -/
def NoneWaits (server : SimpleTServer) (tid : Nat) : Prop :=
  ∀ key ∈ lockedKeys server.lockManager tid, ∀ lock ∈ server.lockManager.timeline key,
    met (server.lockManager.record tid key) lock = true → lock.status = .writeLock →
      tid ∈ lock.tids → ∀ event ∈ server.lockManager.eventsAt key lock.endTs,
        ∀ read ∈ server.readEvents event, server.replies read.rid ≠ none

instance (server : SimpleTServer) (tid : Nat) : Decidable (NoneWaits server tid) :=
  inferInstanceAs (Decidable (∀ key ∈ lockedKeys server.lockManager tid,
    ∀ lock ∈ server.lockManager.timeline key,
      met (server.lockManager.record tid key) lock = true → lock.status = .writeLock →
        tid ∈ lock.tids → ∀ event ∈ server.lockManager.eventsAt key lock.endTs,
          ∀ read ∈ server.readEvents event, server.replies read.rid ≠ none))

/--
A transaction begins with an ID that no other has had; an abort reaches the server
only while its transaction shares no lock, and a commit only while no read waits
for its transaction.
-/
def Unhindered (world : World) : Move → Prop
  | .start process tid startTs => DistinctStarts world (.start process tid startTs)
  | .phaseTwo id => ∀ transaction ∈ world.transactions id,
      (transaction.Aborts → world.server.lockManager.SoleHolder transaction.tid) ∧
        (transaction.CommitsNext → NoneWaits world.server transaction.tid)
  | .read _ _ _ | .write _ _ _ | .finish _ _ | .phaseOne _ _ => True

instance (world : World) (move : Move) : Decidable (Unhindered world move) :=
  match move with
  | .start process tid startTs =>
      inferInstanceAs (Decidable (DistinctStarts world (.start process tid startTs)))
  | .phaseTwo id => inferInstanceAs (Decidable (∀ transaction ∈ world.transactions id,
      (transaction.Aborts → world.server.lockManager.SoleHolder transaction.tid) ∧
        (transaction.CommitsNext → NoneWaits world.server transaction.tid)))
  | .read _ _ _ | .write _ _ _ | .finish _ _ | .phaseOne _ _ => inferInstanceAs (Decidable True)

theorem Unhindered.soleAborts {world : World} {move : Move} (unhindered : Unhindered world move) :
    SoleAborts world move := by
  cases move with
  | start => exact unhindered
  | phaseTwo => exact fun transaction present => (unhindered transaction present).1
  | read | write | finish | phaseOne => trivial

variable {world : World} {moves : List Move} {move : Move} {id event : Nat} {waking : List Nat}
  {transaction : Transaction} {server server' : SimpleTServer} {state : Protocol}
  {programs : Nat → List (Operation Nat String)} {transactions : Nat → Option Transaction}

/-! ## Running a read -/

theorem sendReply_ne_null {rid : Nat} (reply : Reply) :
    server.sendReply rid reply ≠ .error .nullDereference := by
  rw [sendReply]
  split <;> simp

/-- Where a version of the protocol is in the store, a read that stops there is answered. -/
theorem answerRead_ne_null {read : ReadEvent}
    (found : server.get read.key (uintPred read.startTs) ≠ none) :
    server.answerRead event read ≠ .error .nullDereference := by
  obtain ⟨value, known⟩ := Option.ne_none_iff_exists'.1 found
  unfold answerRead
  refine bind_ne_error ?_ fun _ _ => sendReply_ne_null _
  rw [show (server.setEvent event { read with phase := 2 }).get read.key
    (uintPred read.startTs) = some value from known]
  simp [deref]

/-- A read that is run in a state of the protocol finds its version. -/
theorem runRead_ne_null (mirrors : Mirrors programs transactions server state)
    (sound : Sound (fun _ => "0") state) (exact' : Exact server state)
    (wakeful : Wakeful (event :: waking) server) (made : server.readEvents event ≠ none) :
    server.runRead event ≠ .error .nullDereference := by
  obtain ⟨read, present⟩ := Option.ne_none_iff_exists'.1 made
  rcases wakeful.reads event read present with ⟨waits, -⟩ | ⟨phase, -⟩
  · obtain ⟨manager', res, low, returned, scanned⟩ :=
      exists_scanned event wakeful.held.wellFormed waits.timely
    have bound : uintPred read.startTs < uintMax := by
      rw [uintPred_eq waits.timely.1]
      have := waits.timely
      omega
    obtain ⟨point, stop, rfl, -, covering, stops, answers, -⟩ :=
      mirrors.realizes.backward bound returned
    simp only [runRead, present, deref, bind, Except.bind, waits.phase, returned]
    split
    · next granted =>
        refine answerRead_ne_null ?_
        have written := mirrors.realizes.eq_written covering stops (answers.1 granted)
        obtain ⟨value, version⟩ := sound.exists_version written
        rw [exact'] at version
        rw [uintPred_eq (Nat.succ_pos point)]
        exact fun missing => absurd (version.symm.trans missing) (by simp)
    · simp [pure, Except.pure]
  · simp [runRead, present, deref, bind, Except.bind, phase]

/-- Reads that are run one after another find their versions. -/
theorem runEvents_ne_null {events : List Nat}
    (mirrors : Mirrors programs transactions server state)
    (sound : Sound (fun _ => "0") state) (exact' : Exact server state)
    (wakeful : Wakeful events server) (made : ∀ event ∈ events, server.readEvents event ≠ none) :
    SimpleTServer.runEvents events server ≠ .error .nullDereference := by
  induction events generalizing server state with
  | nil => simp [SimpleTServer.runEvents]
  | cons event events ih =>
      rw [SimpleTServer.runEvents]
      refine bind_ne_error
        (runRead_ne_null mirrors sound exact' wakeful (made event List.mem_cons_self))
        fun server₁ ran => ?_
      obtain ⟨state₁, steps, same, mirrors₁⟩ := mirrors.runRead wakeful ran
      have reads := readsOnly_runRead ran
      refine ih mirrors₁ (sound.steps steps) (fun key ts => ?_) (wakeful.runRead ran)
        fun other member => reads.made (made other (List.mem_cons_of_mem _ member))
      rw [same.versions, exact', get_of_store reads.store]

/-! ## Reads that go on waiting -/

theorem wakeful_singleton (wakeful : Wakeful [] server) (event : Nat) : Wakeful [event] server :=
  { wakeful with
    reads := fun other read present => (wakeful.reads other read present).imp_left fun waits =>
      ⟨waits.1, .inr (waits.2.resolve_left List.not_mem_nil)⟩ }

/-- A read that is blocked does not get to its version. -/
theorem runRead_ne_null_of_blocked (wakeful : Wakeful [] server)
    (made : server.readEvents event ≠ none) :
    server.runRead event ≠ .error .nullDereference := by
  obtain ⟨read, present⟩ := Option.ne_none_iff_exists'.1 made
  rcases wakeful.reads event read present with ⟨waits, wakes⟩ | ⟨phase, -⟩
  · obtain ⟨lock, covering, status, -⟩ := wakes.resolve_left List.not_mem_nil
    have positive := waits.timely.1
    have wellFormed := wakeful.held.wellFormed
    obtain ⟨manager', point, stop, returned, effect⟩ :=
      tryBackwardLock_eq wellFormed (show read.startTs - 1 < uintMax by
        have := waits.timely.2; omega) read.key read.tid true event read.startTs
    have locks := effect.locksBackward wellFormed (by have := waits.timely.2; omega)
    -- The scan stops where it begins.
    have here : point = read.startTs - 1 := by
      by_contra elsewhere
      obtain ⟨other, covering', goesOn⟩ := locks.greatest (read.startTs - 1)
        (by have := locks.le; omega) le_rfl
      obtain rfl := Option.some.inj (covering.symm.trans covering')
      simp [status, LockStatus.Stops] at goesOn
    subst here
    obtain rfl := Option.some.inj (covering.symm.trans locks.covering)
    rw [← uintPred_eq positive] at returned
    simp only [runRead, present, deref, bind, Except.bind, waits.phase, returned, status]
    simp [LockStatus.waits, pure, Except.pure]
  · simp [runRead, present, deref, bind, Except.bind, phase]

theorem runEvents_ne_null_of_blocked {events : List Nat} (wakeful : Wakeful [] server)
    (made : ∀ event ∈ events, server.readEvents event ≠ none) :
    SimpleTServer.runEvents events server ≠ .error .nullDereference := by
  induction events generalizing server with
  | nil => simp [SimpleTServer.runEvents]
  | cons event events ih =>
      rw [SimpleTServer.runEvents]
      refine bind_ne_error
        (runRead_ne_null_of_blocked wakeful (made event List.mem_cons_self)) fun server₁ ran => ?_
      exact ih ((wakeful_singleton wakeful event).runRead ran) fun other member =>
        (readsOnly_runRead ran).made (made other (List.mem_cons_of_mem _ member))

/-- A commit for which no read waits leaves all reads blocked that have been. -/
theorem wakeful_letGo {tid : Nat} {manager : AVLTreeLockManager} {events : Finset Nat}
    (wakeful : Wakeful [] server) (proper : server.Proper (.p2c tid true))
    (none' : NoneWaits server tid)
    (released : server.lockManager.freeze tid = .ok (manager, events)) :
    Wakeful [] (letGo server tid manager) := by
  have wellFormed := wakeful.held.wellFormed
  obtain ⟨manager₁, events₁, returned, release⟩ := freeze_eq wellFormed tid
  obtain ⟨rfl, rfl⟩ := Prod.mk.inj (Except.ok.inj (released.symm.trans returned))
  have lets := letsGo_freezeVisit tid
  have after := wakeful.released lets release proper
  refine { after with reads := fun event read present => ?_ }
  refine (after.reads event read present).imp_left fun still => ⟨still.1, .inr ?_⟩
  obtain ⟨waits, wakes⟩ := (wakeful.reads event read present).resolve_right fun answered =>
    absurd (still.1.phase.symm.trans answered.1) (by decide)
  refine (Blocked.stays (wakes.resolve_left List.not_mem_nil) wellFormed release lets
    ).resolve_left ?_
  rintro ⟨lock, member, isMet, status, holds, registered⟩
  cases recorded : server.lockManager.record tid read.key with
  | none => simp [recorded, met] at isMet
  | some range =>
      exact none' read.key (mem_lockedKeys recorded) lock member isMet status holds event registered
        read present waits.fresh

/-- The events that are collected are those of reads. -/
theorem made_of_released {tid : Nat} {vote : Bool} {manager : AVLTreeLockManager}
    {events : Finset Nat} (wakeful : Wakeful [] server)
    (released : (if vote then server.lockManager.freeze tid else server.lockManager.unlock tid) =
      .ok (manager, events)) :
    ∀ event ∈ ascending events, server.readEvents event ≠ none := by
  intro event member
  obtain ⟨visit, lets, release⟩ := exists_letsGo wakeful.held.wellFormed released
  obtain ⟨key, lock, -, -, -, registered⟩ := (release.collected event).1 (mem_ascending.1 member)
  obtain ⟨read, present, -⟩ := wakeful.registered key lock.endTs event registered
  simp [present]

/-! ## The steps of a transaction -/

/-- The requests at which a step faults. -/
inductive FaultsAt (world : World) (fault : Fault) : Move → Prop where
  | read
      {id key event : Nat}
      {transaction : Transaction}
      (found : world.ready id = .ok transaction)
      (unwritten : transaction.pendWrites key = none)
      (new : world.server.readEvents event = none)
      (faulted : Faulted getNode world.server (world.sent + 1) event
        (.read transaction.tid transaction.startTs key) fault) :
      FaultsAt world fault (.read id key event)
  | write
      {id key : Nat}
      {value : String}
      {tid : Nat}
      (faulted : Faulted getNode world.server (world.sent + 1) 0 (.write tid key value) fault) :
      FaultsAt world fault (.write id key value)
  | phaseOne
      {id : Nat}
      {unset : Bool}
      {transaction : Transaction}
      (present : world.transactions id = some transaction)
      (faulted : Faulted getNode world.server (world.sent + 1) 0
        (.p1c transaction.tid transaction.startTs transaction.startTs transaction.readNodes
          transaction.writeNodes) fault) :
      FaultsAt world fault (.phaseOne id unset)
  | phaseTwo
      {id : Nat}
      {transaction : Transaction}
      {committing vote : Bool}
      {remNodes : Finset Nat}
      (present : world.transactions id = some transaction)
      (stage : transaction.stage = .phaseTwo committing vote remNodes)
      (remain : remNodes ≠ ∅)
      (faulted : Faulted getNode world.server (world.sent + 1) 0 (.p2c transaction.tid vote)
        fault) :
      FaultsAt world fault (.phaseTwo id)

theorem serve_eq_error {fault : Fault} {unset : Bool} {request : Request}
    (failed : world.serve getNode id event unset request = .error (.fault fault)) :
    Faulted getNode world.server (world.sent + 1) event request fault := by
  unfold World.serve at failed
  split at failed
  · next other handled =>
      obtain rfl := Halt.fault.inj (Except.error.inj failed)
      exact faulted_of_handle handled
  · exact absurd failed (by simp)

theorem ready_ne_fault {fault : Fault} : world.ready id ≠ .error (.fault fault) := by
  unfold World.ready
  split
  · simp
  · split
    · simp
    · split <;> simp
    · simp

theorem finishing_ne_fault {fault : Fault} : world.finishing id ≠ .error (.fault fault) := by
  unfold World.finishing
  split <;> simp

/-- A step faults only in the handling of a request. -/
theorem faultsAt_of_step {fault : Fault}
    (failed : world.step getNode move = .error (.fault fault)) : FaultsAt world fault move := by
  cases move with
  | start => exact absurd failed (by simp [World.step])
  | read id key event =>
      rcases error_of_bind failed with unready | ⟨transaction, found, failed⟩
      · exact absurd unready ready_ne_fault
      · split at failed
        · exact absurd failed (by simp [pure, Except.pure])
        · exact absurd failed (by simp)
        · next unwritten new =>
            rcases error_of_bind failed with faulted | ⟨world₁, -, failed⟩
            · exact .read found unwritten new (serve_eq_error faulted)
            · exact absurd failed (by simp [pure, Except.pure])
  | write id key value =>
      rcases error_of_bind failed with unready | ⟨transaction, found, failed⟩
      · exact absurd unready ready_ne_fault
      · rcases error_of_bind failed with faulted | ⟨world₁, -, failed⟩
        · exact .write (serve_eq_error faulted)
        · exact absurd failed (by simp [pure, Except.pure])
  | finish id committing =>
      rcases error_of_bind failed with unready | ⟨transaction, found, failed⟩
      · exact absurd unready ready_ne_fault
      · exact absurd failed (by simp [pure, Except.pure])
  | phaseOne id unset =>
      rcases error_of_bind failed with absent | ⟨transaction, found, failed⟩
      · exact absurd absent finishing_ne_fault
      · split at failed
        · split at failed
          · exact absurd failed (by simp [pure, Except.pure])
          · rcases error_of_bind failed with faulted | ⟨world₁, -, failed⟩
            · exact .phaseOne (present_of_finishing found) (serve_eq_error faulted)
            · split at failed
              · exact absurd failed (by simp [pure, Except.pure])
              · exact absurd failed (by simp)
        · exact absurd failed (by simp)
  | phaseTwo id =>
      rcases error_of_bind failed with absent | ⟨transaction, found, failed⟩
      · exact absurd absent finishing_ne_fault
      · split at failed
        · next committing vote remNodes stage =>
            split at failed
            · exact absurd failed (by simp [pure, Except.pure])
            · next remain =>
                rcases error_of_bind failed with faulted | ⟨world₁, -, failed⟩
                · exact .phaseTwo (present_of_finishing found) stage remain
                    (serve_eq_error faulted)
                · split at failed
                  · exact absurd failed (by simp [pure, Except.pure])
                  · exact absurd failed (by simp)
        · exact absurd failed (by simp)

/-- A `TP2C` for which no read waits runs only reads that find their versions. -/
theorem phaseTwo_ne_null {committing vote : Bool} {remNodes : Finset Nat}
    (coherent : Coherent world) (sound : Sound (fun _ => "0") state)
    (mirrors : Mirrors programs world.transactions world.server state)
    (exact' : Exact world.server state) (present : world.transactions id = some transaction)
    (stage : transaction.stage = .phaseTwo committing vote remNodes)
    (sole : vote = false → world.server.lockManager.SoleHolder transaction.tid)
    (none' : vote = true → NoneWaits world.server transaction.tid) :
    ¬ Faulted getNode world.server (world.sent + 1) 0 (.p2c transaction.tid vote)
      .nullDereference := by
  have wellFormed := coherent.wakeful.held.wellFormed
  intro faulted
  cases faulted with
  | p2cRelease known failed =>
      cases vote with
      | false =>
          obtain ⟨manager, events, returned, -⟩ := unlock_eq wellFormed transaction.tid
          exact absurd (returned.symm.trans failed) (by simp)
      | true =>
          obtain ⟨manager, events, returned, -⟩ := freeze_eq wellFormed transaction.tid
          exact absurd (returned.symm.trans failed) (by simp)
  | @p2c _ _ _ manager events known released ran =>
      have made := made_of_released coherent.wakeful released
      have proper := mirrors.proper coherent present stage
      cases vote with
      | true =>
          have waiting := wakeful_letGo coherent.wakeful proper (none' rfl) released
          exact runEvents_ne_null_of_blocked waiting made ran
      | false =>
          obtain ⟨state₁, step, versions, mirrors₁⟩ :=
            mirrors.releases coherent sound present stage known sole released
          obtain ⟨visit, lets, release⟩ := exists_letsGo wellFormed released
          have waking := coherent.wakeful.released lets release proper
          refine runEvents_ne_null mirrors₁ (sound.step step) (fun key ts => ?_) waking made ran
          rw [versions, if_neg (by simp)]
          exact exact' key ts

/--
In a run in which no commit is handled while a read waits for its transaction, and
no abort while its transaction shares a lock, no read meets a missing version.
-/
theorem found_of_trace (trace : Trace (World.step getNode) Unhindered .first moves world)
    (unhindered : Unhindered world move) :
    world.step getNode move ≠ .error (.fault .nullDereference) := by
  have sole := trace.mono fun _ _ => Unhindered.soleAborts
  have coherent := coherent_of_reach (sole.reach.mono fun _ _ => SoleAborts.distinctStarts)
  obtain ⟨state, steps, exact', mirrors⟩ := exists_protocol sole
  have sound : Sound (fun _ => "0") state := .of_steps steps
  intro failed
  cases faultsAt_of_step failed with
  | @read id key event transaction found unwritten new faulted =>
      obtain ⟨stage, coherent'⟩ := coherent.ready found
      have present := World.store_self world id transaction
      have timely := coherent'.timely _ _ present
      cases faulted with
      | readRefused refused => exact refused (by simp [coherent.nodes, getNode])
      | read served ran =>
          have woken : Wakeful [event] (world.server.takenUp getNode (world.sent + 1) event
              transaction.tid transaction.startTs key) :=
            coherent.wakeful.takenUp new coherent.unsent coherent.fresh ⟨timely.1, timely.2.le⟩
          have taken := (mirrors.ready coherent found).takenUp coherent' present stage unwritten new
          refine runRead_ne_null taken sound exact' woken ?_ ran
          simp [SimpleTServer.takenUp, SimpleTServer.setEvent]
  | write faulted => cases faulted
  | @phaseOne id unset transaction present faulted =>
      cases faulted with
      | p1c known locked =>
          have wellFormed := coherent.wakeful.held.wellFormed
          obtain ⟨outcome, returned⟩ := exists_lockKeys
            ⟨wellFormed.trees, fun tid key low high recorded =>
              (wellFormed.records tid key low high recorded).2⟩ (coherent.timely _ _ present).2.le
          exact absurd (returned.symm.trans locked) (by simp)
  | @phaseTwo id transaction committing vote remNodes present stage remain faulted =>
      have permitted := unhindered transaction present
      refine phaseTwo_ne_null coherent sound mirrors exact' present stage (fun aborts => ?_)
        (fun commits => ?_) faulted
      · exact permitted.1 (by simp [Transaction.Aborts, stage, aborts, remain])
      · exact permitted.2 (by simp [Transaction.CommitsNext, stage, commits, remain])

/-- An abort wakes up a read at 30, which finds the version that has been committed at 10. -/
theorem found_of_trace_of_three :
    ∃ world : World, world.server.replies 6 = none ∧ world.server.get 5 10 = some "a" ∧
      world.step getNode (.phaseTwo 1) ≠ .error (.fault .nullDereference) := by
  obtain ⟨world, trace, holds⟩ := exists_trace_of_admits Unhindered
    [.start 0 7 10, .write 0 5 "a", .finish 0 true, .phaseOne 0 false, .phaseOne 0 false,
      .phaseTwo 0, .start 0 8 20, .write 1 5 "b", .finish 1 false, .phaseOne 1 false,
      .start 1 9 30, .read 2 5 1, .phaseOne 1 false]
    (fun world : World =>
      decide (world.server.replies 6 = none ∧ world.server.get 5 10 = some "a" ∧
        Unhindered world (.phaseTwo 1)))
    (show admits (World.step getNode) _ .first _ = true by decide)
    (show ends (World.step getNode) _ .first _ = true by decide)
  obtain ⟨blocked, stored, unhindered⟩ := of_decide_eq_true holds
  exact ⟨world, blocked, stored, found_of_trace trace unhindered⟩

/-- Whether a step dereferences a null pointer. -/
def World.missing (world : World) (move : Move) : Bool :=
  match world.step getNode move with
  | .error halt => halt = .fault .nullDereference
  | .ok _ => false

theorem World.missing_eq (missing : world.missing move = true) :
    world.step getNode move = .error (.fault .nullDereference) := by
  unfold World.missing at missing
  split at missing
  · next halt failed => rw [failed, of_decide_eq_true missing]
  · exact absurd missing (by decide)

/--
A read waits at 10 for a writer that commits there, and meets a missing version.
So does a read that comes when an abort has unlocked a lock which another
transaction shares, and this transaction has frozen the lock of a writer instead.
-/
theorem exists_missing :
    (∃ (moves : List Move) (world : World),
      Trace (World.step getNode) DistinctStarts .first moves world ∧
      DistinctStarts world (.phaseTwo 0) ∧
      world.server.readEvents 1 = some ⟨3, 8, 11, 5, 0⟩ ∧ world.server.get 5 10 = none ∧
      world.step getNode (.phaseTwo 0) = .error (.fault .nullDereference)) ∧
    ∃ (moves : List Move) (world : World),
      Trace (World.step getNode) DistinctStarts .first moves world ∧
      DistinctStarts world (.read 3 5 3) ∧
      world.server.get 5 10 = none ∧
      world.step getNode (.read 3 5 3) = .error (.fault .nullDereference) := by
  constructor
  · obtain ⟨world, trace, holds⟩ := exists_trace_of_admits DistinctStarts
      [.start 0 7 10, .start 1 8 20, .write 0 5 "a", .finish 0 true, .phaseOne 0 false,
        .phaseOne 0 false, .read 1 5 1]
      (fun world : World =>
        decide (world.server.readEvents 1 = some ⟨3, 8, 11, 5, 0⟩ ∧
          world.server.get 5 10 = none) && world.missing (.phaseTwo 0))
      (show admits (World.step getNode) _ .first _ = true by decide)
      (show ends (World.step getNode) _ .first _ = true by decide)
    obtain ⟨known, fails⟩ := Bool.and_eq_true_iff.1 holds
    obtain ⟨waits, missing⟩ := of_decide_eq_true known
    exact ⟨_, world, trace, trivial, waits, missing, World.missing_eq fails⟩
  · obtain ⟨world, trace, holds⟩ := exists_trace_of_admits DistinctStarts
      [.start 0 7 30, .start 1 8 40, .start 2 9 10, .start 3 6 20, .read 0 5 1, .read 1 5 2,
        .finish 0 false, .phaseOne 0 false, .phaseTwo 0, .write 2 5 "a", .finish 2 true,
        .phaseOne 2 false, .phaseOne 2 false, .finish 1 true, .phaseOne 1 false, .phaseTwo 1]
      (fun world : World =>
        decide (world.server.get 5 10 = none) && world.missing (.read 3 5 3))
      (show admits (World.step getNode) _ .first _ = true by decide)
      (show ends (World.step getNode) _ .first _ = true by decide)
    obtain ⟨known, fails⟩ := Bool.and_eq_true_iff.1 holds
    exact ⟨_, world, trace, trivial, of_decide_eq_true known, World.missing_eq fails⟩

end Mvtx.Cluster
