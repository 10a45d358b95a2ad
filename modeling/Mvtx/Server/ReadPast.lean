import Mvtx.Lock.Wire
import Mvtx.Server.SimpleTServer

/-!
# Reads lock the past

A read with the start timestamp `t` scans backwards from `t - 1`, so that it
locks below `t` only.  For `t = 0` the subtraction wraps around, and the read
locks everything down from the end of time.
-/

namespace Mvtx.Server

open Lib Lock AVLTreeLockManager

/-- A read at `startTs` that reports `low` has only touched what lies below it. -/
structure LocksPast (manager : AVLTreeLockManager) (startTs : Nat)
    (manager' : AVLTreeLockManager) (low : Nat) : Prop where
  untouched : ∀ key ts, startTs ≤ ts → manager'.viewAt key ts = manager.viewAt key ts
  lower : ∃ ts, ts < startTs ∧ low = ts + 1

/-- The scan of a read locks the past unless it starts at zero. -/
theorem exists_locksPast_iff {manager : AVLTreeLockManager} {startTs : Nat}
    (trees : manager.Trees) (bound : startTs ≤ uintMax) (key tid event : Nat) :
    ∃ manager' res low,
      manager.tryBackwardLock key tid (uintPred startTs) true event startTs =
          .ok (manager', res, low) ∧
        (LocksPast manager startTs manager' low ↔ 1 ≤ startTs) := by
  have pred : uintPred startTs ≤ uintMax := by
    unfold uintPred
    split <;> omega
  obtain ⟨manager', stopTs, stop, returned, walks, -⟩ :=
    tryBackwardLock_walks trees pred key tid true event startTs
  refine ⟨manager', _, _, returned, ?_⟩
  constructor
  · rintro ⟨-, ts, below, -⟩
    exact Nat.lt_of_le_of_lt (Nat.zero_le ts) below
  · intro positive
    have le := walks.le
    rw [uintPred_eq positive] at le walks
    rw [uintSucc_eq (by omega)]
    refine ⟨fun other ts after => ?_, stopTs, by omega, rfl⟩
    rw [walks.viewAt trees, if_neg fun inside => by omega]

/-- What running a read event in phase 0 leaves of the lock manager and of the event. -/
theorem runRead_lockManager {server server' : SimpleTServer} {event low : Nat}
    {state : ReadEvent} {manager' : AVLTreeLockManager} {res : Bool}
    (present : server.readEvents event = some state) (phase : state.phase = 0)
    (returned : server.lockManager.tryBackwardLock state.key state.tid
      (uintPred state.startTs) true event state.startTs = .ok (manager', res, low))
    (ran : server.runRead event = .ok server') :
    server'.lockManager = manager' ∧
      ∃ state', server'.readEvents event = some state' ∧ state'.startTs = low := by
  simp only [SimpleTServer.runRead, present, deref, phase, returned, bind, Except.bind] at ran
  cases res with
  | false =>
      simp only [Bool.false_eq_true, if_false, pure, Except.pure, Except.ok.injEq] at ran
      subst ran
      exact ⟨rfl, { state with startTs := low, phase := 0 }, Function.update_self .., rfl⟩
  | true =>
      simp only [if_true, SimpleTServer.answerRead, bind, Except.bind] at ran
      split at ran
      · exact absurd ran (by simp)
      · simp only [SimpleTServer.sendReply] at ran
        split at ran
        · exact absurd ran (by simp)
        · obtain rfl := Except.ok.inj ran
          exact ⟨rfl, { state with startTs := low, phase := 2 }, Function.update_self .., rfl⟩

/--
In every state that calls with 64-bit timestamps lead to, a read event in phase
0 locks the past if and only if it does not start at zero.
-/
theorem runRead_locksPast_iff {server : SimpleTServer} {event : Nat} {state : ReadEvent}
    (reached : Reach ManagerCall.apply (fun manager call => call.Wired manager) empty
      server.lockManager)
    (present : server.readEvents event = some state) (phase : state.phase = 0)
    (bound : state.startTs ≤ uintMax) :
    ∃ manager' res low,
      server.lockManager.tryBackwardLock state.key state.tid (uintPred state.startTs) true
          event state.startTs = .ok (manager', res, low) ∧
        (∀ server', server.runRead event = .ok server' →
          server'.lockManager = manager' ∧
            ∃ state', server'.readEvents event = some state' ∧ state'.startTs = low) ∧
        (LocksPast server.lockManager state.startTs manager' low ↔ 1 ≤ state.startTs) := by
  have sound : server.lockManager.Sound := reached.invariant .empty
    fun _ _ _ sound wired applied => sound.apply wired applied
  obtain ⟨manager', res, low, returned, iff⟩ :=
    exists_locksPast_iff sound.trees bound state.key state.tid event
  exact ⟨manager', res, low, returned,
    fun server' ran => runRead_lockManager present phase returned ran, iff⟩

/-- The server on which a read at `startTs` has been taken up as its first request. -/
def SimpleTServer.firstRead (startTs : Nat) : SimpleTServer :=
  SimpleTServer.initial.setEvent 3
    { rid := 1, tid := 5, startTs := startTs, key := 7, phase := 0 }

/-- A first read at the timestamp `10`. -/
theorem runRead_locksPast_iff_of_ten :
    ∃ manager' res low,
      (SimpleTServer.firstRead 10).lockManager.tryBackwardLock 7 5 (uintPred 10) true 3 10 =
          .ok (manager', res, low) ∧
        (∀ server', (SimpleTServer.firstRead 10).runRead 3 = .ok server' →
          server'.lockManager = manager' ∧
            ∃ state', server'.readEvents 3 = some state' ∧ state'.startTs = low) ∧
        (LocksPast (SimpleTServer.firstRead 10).lockManager 10 manager' low ↔ 1 ≤ 10) :=
  @runRead_locksPast_iff (SimpleTServer.firstRead 10) 3
    { rid := 1, tid := 5, startTs := 10, key := 7, phase := 0 }
    .refl rfl rfl (by decide)

/--
A first read at the timestamp `0` is answered, and then a write at `5` is
refused: everything from `1` on is locked.
-/
theorem not_locksPast_of_zero :
    ∃ server' low, (SimpleTServer.firstRead 0).runRead 3 = .ok server' ∧
      server'.replies 1 = some (.read "0" true) ∧
      (server'.readEvents 3).map (·.startTs) = some low ∧
      ¬ LocksPast (SimpleTServer.firstRead 0).lockManager 0 server'.lockManager low ∧
      (server'.lockManager.tryLock 7 6 5 5 false).map (·.2) = .ok false := by
  refine ⟨_, 1, rfl, rfl, rfl, ?_, rfl⟩
  rintro ⟨-, ts, below, -⟩
  exact absurd below (Nat.not_lt_zero ts)

end Mvtx.Server
