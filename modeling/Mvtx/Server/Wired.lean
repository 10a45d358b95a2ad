import Mvtx.Lock.Alone
import Mvtx.Lock.Wire
import Mvtx.Server.Wakeful

/-!
# A server that handles any 64-bit timestamps

The lock manager stays sound whatever the requests are, as long as their
timestamps are 64-bit integers and a transaction commits at its start
timestamp.  In such a state `TP1C` gets all locks only if the keys that it
locks differ and are free.
-/

namespace Mvtx.Server

open Lib Lock AVLTreeLockManager SimpleTServer

/-- 64-bit timestamps, and one of them for the whole of a transaction. -/
def Request.Wired : Request → Prop
  | .read _ startTs _ => startTs ≤ uintMax
  | .p1c _ startTs commitTs _ _ => startTs = commitTs ∧ commitTs ≤ uintMax
  | .write _ _ _ | .p2c _ _ => True

instance (request : Request) : Decidable request.Wired :=
  match request with
  | .read _ startTs _ => inferInstanceAs (Decidable (startTs ≤ uintMax))
  | .p1c _ startTs commitTs _ _ =>
      inferInstanceAs (Decidable (startTs = commitTs ∧ commitTs ≤ uintMax))
  | .write _ _ _ | .p2c _ _ => inferInstanceAs (Decidable True)

/-- The lock manager is sound, and its scans begin at 64-bit timestamps. -/
structure SimpleTServer.Sound (server : SimpleTServer) : Prop where
  lockManager : server.lockManager.Sound
  reads : ∀ event state, server.readEvents event = some state → state.startTs ≤ uintMax

theorem uintPred_le {x : Nat} (bound : x ≤ uintMax) : uintPred x ≤ uintMax := by
  unfold uintPred
  split <;> omega

theorem uintSucc_le {x : Nat} (bound : x ≤ uintMax) : uintSucc x ≤ uintMax := by
  unfold uintSucc
  split <;> omega

/-! ## Locking the keys of a transaction -/

section LockKeys

variable {manager manager' : AVLTreeLockManager} {key tid ts : Nat} {res : Bool}

theorem sound_tryLock (sound : manager.Sound) (bound : ts ≤ uintMax)
    (returned : manager.tryLock key tid ts ts false = .ok (manager', res)) : manager'.Sound := by
  obtain ⟨manager₁, lock, -, -, ⟨-, returned₁, trees, same⟩ | ⟨pends, -, -, returned₁, takes⟩⟩ :=
    tryLock_point_trees sound.trees key bound tid false
  all_goals
    rw [returned] at returned₁
    obtain ⟨rfl, rfl⟩ := Prod.mk.inj (Except.ok.inj returned₁)
  · exact sound.sameView trees same
  · exact sound.gain takes.trees bound takes.record

/-- A write lock at a timestamp takes what is free, and nothing of any other key. -/
theorem granted_tryLock (trees : manager.Trees) (bound : ts ≤ uintMax)
    (returned : manager.tryLock key tid ts ts false = .ok (manager', true)) :
    manager.statusAt key ts = some .free ∧ manager'.statusAt key ts = some .writeLock ∧
      ∀ other, other ≠ key → manager'.statusAt other ts = manager.statusAt other ts := by
  obtain ⟨manager₁, lock, member, covers, ⟨-, returned₁, -⟩ | ⟨pends, visit, -, returned₁, takes⟩⟩ :=
    tryLock_point_trees trees key bound tid false
  all_goals
    rw [returned] at returned₁
    obtain ⟨rfl, same⟩ := Prod.mk.inj (Except.ok.inj returned₁)
  · exact absurd same (by decide)
  · obtain ⟨free, rfl⟩ : lock.status = .free ∧ pends = true := by
      cases status : lock.status <;> simp_all [searchVisit]
    refine ⟨(statusAt_eq_some trees).2 ⟨lock, member, covers, free⟩, ?_, fun other differs => ?_⟩
    · have view := takes.viewAt trees ((covering_eq_some trees).2 ⟨member, covers⟩)
      rw [if_pos ⟨by simp, Nat.le_refl _, Nat.le_refl _⟩, free] at view
      rw [statusAt_eq_viewAt, view]
      rfl
    · rw [AVLTreeLockManager.statusAt, AVLTreeLockManager.statusAt, covering, covering,
        takes.timeline, if_neg differs]

/-- The lock manager after `freeze` or `unlock`. -/
theorem sound_released {manager manager' : AVLTreeLockManager} {tid : Nat} {vote : Bool}
    {events : Finset Nat} (sound : manager.Sound)
    (released : (if vote then manager.freeze tid else manager.unlock tid) =
      .ok (manager', events)) : manager'.Sound := by
  cases vote with
  | false => exact (sound.release (lawfulVisit_unlockVisit tid) released).2
  | true => exact (sound.release (lawfulVisit_freezeVisit tid) released).2

/-- Locking the keys of a transaction does not fault. -/
theorem exists_lockKeys {keys : List Nat} (sound : manager.Sound) (bound : ts ≤ uintMax) :
    ∃ outcome, lockKeys tid ts ts keys manager = .ok outcome := by
  induction keys generalizing manager with
  | nil => exact ⟨_, rfl⟩
  | cons key keys ih =>
      have first : ∃ manager₁ res, manager.tryLock key tid ts ts false = .ok (manager₁, res) := by
        obtain ⟨manager₁, lock, -, -, ⟨-, returned, -⟩ | ⟨pends, -, -, returned, -⟩⟩ :=
          tryLock_point_trees sound.trees key bound tid false
        all_goals exact ⟨_, _, returned⟩
      obtain ⟨manager₁, res, returned⟩ := first
      simp only [lockKeys, returned, bind, Except.bind]
      cases res with
      | false => exact ⟨_, rfl⟩
      | true => exact ih (sound_tryLock sound bound returned)

/-- `TP1C` gets all locks only if the keys differ and are free. -/
theorem free_of_lockKeys {keys : List Nat} (sound : manager.Sound) (bound : ts ≤ uintMax)
    (locked : lockKeys tid ts ts keys manager = .ok (manager', true)) :
    keys.Nodup ∧ ∀ key ∈ keys, manager.statusAt key ts = some .free := by
  induction keys generalizing manager with
  | nil => simp
  | cons key keys ih =>
      rw [lockKeys] at locked
      obtain ⟨⟨manager₁, res⟩, first, rest⟩ := exists_of_bind locked
      cases res with
      | false => exact absurd (Prod.mk.inj (Except.ok.inj rest)).2 (by decide)
      | true =>
          obtain ⟨free, taken, others⟩ := granted_tryLock sound.trees bound first
          obtain ⟨once, free'⟩ := ih (sound_tryLock sound bound first) rest
          have differs : ∀ other ∈ keys, other ≠ key := by
            rintro other member rfl
            exact absurd ((free' other member).symm.trans taken) (by decide)
          refine ⟨List.nodup_cons.2 ⟨fun member => differs key member rfl, once⟩,
            List.forall_mem_cons.2 ⟨free, fun other member => ?_⟩⟩
          rw [← others other (differs other member)]
          exact free' other member

end LockKeys

/-! ## Handling a request -/

variable {server server' : SimpleTServer} {getNode : Nat → Nat} {rid event : Nat} {unset : Bool}
  {request : Request}

namespace SimpleTServer.Sound

theorem setEvent (sound : server.Sound) (event : Nat) (state : ReadEvent)
    (bound : state.startTs ≤ uintMax) : (server.setEvent event state).Sound where
  lockManager := sound.lockManager
  reads := by
    intro other state' present
    by_cases same : other = event
    · subst same
      obtain rfl : state = state' := by simpa [SimpleTServer.setEvent] using present
      exact bound
    · exact sound.reads other state' (by simpa [SimpleTServer.setEvent, same] using present)

theorem answerRead (sound : server.Sound) (state : ReadEvent) (bound : state.startTs ≤ uintMax)
    (answered : server.answerRead event state = .ok server') : server'.Sound := by
  obtain ⟨value, -, -, rfl⟩ := answerRead_eq answered
  have stored := sound.setEvent event { state with phase := 2 } bound
  exact ⟨stored.lockManager, stored.reads⟩

theorem runRead (sound : server.Sound) (ran : server.runRead event = .ok server') :
    server'.Sound := by
  obtain ⟨state, present, ⟨-, lockManager, res, startTs, returned, outcome⟩ | ⟨-, answered⟩⟩ :=
    runRead_cases ran
  · have bound := uintPred_le (sound.reads event state present)
    obtain ⟨manager₁, stopTs, stop, returned₁, walks, record⟩ :=
      tryBackwardLock_walks sound.lockManager.trees bound state.key state.tid true event state.startTs
    rw [returned] at returned₁
    obtain ⟨rfl, -, rfl⟩ : lockManager = manager₁ ∧ _ ∧ startTs = uintSucc stopTs := by
      simpa using returned₁
    have scanned : SimpleTServer.Sound { server with lockManager := lockManager } :=
      ⟨sound.lockManager.gain walks.trees bound record, sound.reads⟩
    have low : uintSucc stopTs ≤ uintMax := uintSucc_le (walks.le.trans bound)
    rcases outcome with ⟨-, rfl⟩ | ⟨-, answered⟩
    · exact scanned.setEvent event _ low
    · exact scanned.answerRead _ low answered
  · exact sound.answerRead state (sound.reads event state present) answered

theorem runEvents {events : List Nat} (sound : server.Sound)
    (ran : runEvents events server = .ok server') : server'.Sound := by
  induction events generalizing server with
  | nil =>
      obtain rfl := Except.ok.inj ran
      exact sound
  | cons event events ih =>
      rw [SimpleTServer.runEvents] at ran
      obtain ⟨server₁, first, rest⟩ := exists_of_bind ran
      exact ih (sound.runRead first) rest

/-- Handling a request keeps the server sound. -/
theorem handled (sound : server.Sound) (wired : request.Wired)
    (handled : Handled getNode server rid event unset request server') : server'.Sound := by
  cases handled with
  | @read tid startTs key server' served unlocked ran =>
      have known : SimpleTServer.Sound
          { server with tidToNodes := insertNode server.tidToNodes tid (getNode key) } :=
        ⟨sound.lockManager, sound.reads⟩
      have taken : (server.takenUp getNode rid event tid startTs key).Sound :=
        known.setEvent event _ wired
      exact taken.runRead ran
  | write | writeRefused | p1cRefused | p2cRefused => exact ⟨sound.lockManager, sound.reads⟩
  | p1c known unlocked locked fresh =>
      obtain ⟨rfl, bound⟩ := wired
      exact ⟨lockKeys_induction AVLTreeLockManager.Sound sound.lockManager
        (fun _ _ _ _ sound returned => sound_tryLock sound bound returned) locked, sound.reads⟩
  | @p2c tid vote nodes manager events server₁ known unlocked released ran fresh =>
      have freed : manager.Sound := by
        cases vote with
        | false => exact (sound.lockManager.release (lawfulVisit_unlockVisit tid) released).2
        | true => exact (sound.lockManager.release (lawfulVisit_freezeVisit tid) released).2
      have before : SimpleTServer.Sound { server with
          tidToNodes := Function.update server.tidToNodes tid none
          lockManager := manager } := ⟨freed, sound.reads⟩
      have after := before.runEvents ran
      obtain ⟨store, pendWrites, rdyToCommit, same, -⟩ := finalize_eq server₁ tid vote
      rw [same]
      exact ⟨after.lockManager, after.reads⟩

end SimpleTServer.Sound

end Mvtx.Server
