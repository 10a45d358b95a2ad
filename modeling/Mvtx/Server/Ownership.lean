import Mvtx.Lock.Ownership
import Mvtx.Server.Books
import Mvtx.Server.Wired

/-!
# Whose entries they are

The server keeps the writes, the prepared timestamps and the locks under the IDs of
the transactions, and only the `TP2C` of an ID ends what is kept under it.  What
several transactions have locked for reading is frozen by the first of them that
commits.
-/

namespace Mvtx.Server

open Lib Lock AVLTreeLockManager SimpleTServer

/--
What is kept under an ID stays, though read locks that it shares may be frozen by the
commit of another.
-/
structure Keeps (server server' : SimpleTServer) (request : Request) (tid : Nat) : Prop where
  writes : (server.pendWrites tid).getD [] <+: (server'.pendWrites tid).getD []
  prepared : server.rdyToCommit tid ≠ none → server'.rdyToCommit tid ≠ none
  locks : ∀ key ts status, server.lockManager.Holds tid key ts status →
    server'.lockManager.Holds tid key ts status ∨
      status = .readLock ∧ server'.lockManager.statusAt key ts = some .freezeReadLock ∧
        ∃ other, other ≠ tid ∧ request = .p2c other true ∧
          server.lockManager.Holds other key ts .readLock

variable {server server' : SimpleTServer} {getNode : Nat → Nat} {rid event tid : Nat}
  {unset : Bool} {request : Request}

/-! ## The locks -/

theorem grows_runRead (sound : server.Sound) (ran : server.runRead event = .ok server') :
    Grows server.lockManager server'.lockManager := by
  obtain ⟨state, present, ⟨-, lockManager, res, startTs, returned, outcome⟩ | ⟨-, answered⟩⟩ :=
    runRead_cases ran
  · have bound := uintPred_le (sound.reads event state present)
    obtain ⟨manager₁, stopTs, stop, returned₁, walks, -⟩ := tryBackwardLock_walks
      sound.lockManager.trees bound state.key state.tid true event state.startTs
    rw [returned] at returned₁
    obtain ⟨rfl, -⟩ : lockManager = manager₁ ∧ _ := by simpa using returned₁
    have grows := grows_of_walks sound.lockManager.trees walks
    rcases outcome with ⟨-, rfl⟩ | ⟨-, answered⟩
    · exact grows
    · obtain ⟨value, -, -, rfl⟩ := answerRead_eq answered
      exact grows
  · obtain ⟨value, -, -, rfl⟩ := answerRead_eq answered
    exact .refl _

theorem grows_runEvents {events : List Nat} (sound : server.Sound)
    (ran : runEvents events server = .ok server') :
    Grows server.lockManager server'.lockManager := by
  induction events generalizing server with
  | nil =>
      obtain rfl := Except.ok.inj ran
      exact .refl _
  | cons event events ih =>
      rw [SimpleTServer.runEvents] at ran
      obtain ⟨server₁, first, rest⟩ := exists_of_bind ran
      exact (grows_runRead sound first).trans (ih (sound.runRead first) rest)

theorem grows_lockKeys {keys : List Nat} {manager manager' : AVLTreeLockManager} {ts : Nat}
    {res : Bool} (sound : manager.Sound) (bound : ts ≤ uintMax)
    (locked : lockKeys tid ts ts keys manager = .ok (manager', res)) : Grows manager manager' := by
  refine (lockKeys_induction (fun manager' => manager'.Sound ∧ Grows manager manager')
    ⟨sound, .refl _⟩ ?_ locked).2
  rintro manager₁ manager₂ key res ⟨sound₁, grows⟩ returned
  exact ⟨sound_tryLock sound₁ bound returned, grows.trans (grows_of_tryLock sound₁ bound returned)⟩

/-! ## Handling a request -/

/-- A request that takes locks and adds to what is kept. -/
theorem Keeps.of_grows (grows : Grows server.lockManager server'.lockManager)
    (writes : (server.pendWrites tid).getD [] <+: (server'.pendWrites tid).getD [])
    (prepared : server.rdyToCommit tid ≠ none → server'.rdyToCommit tid ≠ none) :
    Keeps server server' request tid where
  writes := writes
  prepared := prepared
  locks := fun key ts status holds => .inl (grows.holds tid key ts status holds)

/-- A `TP2C` ends what is kept under its own ID. -/
theorem keeps_of_p2c {vote : Bool} {manager : AVLTreeLockManager} {events : Finset Nat}
    {server₁ : SimpleTServer} (rid : Nat) (nodes : Finset Nat) (sound : server.Sound)
    (tidy : server.lockManager.Tidy)
    (sole : vote = false → server.lockManager.SoleHolder tid)
    (released : (if vote then server.lockManager.freeze tid else server.lockManager.unlock tid) =
      .ok (manager, events))
    (ran : runEvents (ascending events)
      { server with
        tidToNodes := Function.update server.tidToNodes tid none
        lockManager := manager } = .ok server₁) :
    ((server₁.finalize tid vote).replied rid (.p2c nodes)).lockManager.Tidy ∧
      ∀ other, other ≠ tid → Keeps server ((server₁.finalize tid vote).replied rid (.p2c nodes))
        (.p2c tid vote) other := by
  have freed := sound_released sound.lockManager released
  have before : SimpleTServer.Sound
      { server with
        tidToNodes := Function.update server.tidToNodes tid none
        lockManager := manager } := ⟨freed, sound.reads⟩
  have leaves := leavesOthers_of_release sound.lockManager tidy sole freed.trees released
  have grows := grows_runEvents before ran
  have reads := readsOnly_runEvents ran
  obtain ⟨store, pendWrites, rdyToCommit, same, pending, ready, -⟩ := finalize_eq server₁ tid vote
  rw [same]
  refine ⟨grows.tidy leaves.tidy, fun other differs => ⟨?_, fun prepared => ?_,
    fun key ts status holds => ?_⟩⟩
  · show _ <+: (pendWrites other).getD []
    rw [pending other differs, reads.pendWrites]
  · show rdyToCommit other ≠ none
    rw [ready other differs, reads.rdyToCommit]
    exact prepared
  · rcases leaves.holds other differs key ts status holds with
      still | ⟨rfl, read, shared, frozen⟩
    · exact .inl (grows.holds other key ts status still)
    · exact .inr ⟨read, grows.frozen key ts frozen, tid, differs.symm, rfl, shared⟩

/-- Whatever is handled, what is kept under an ID stays until its `TP2C` is handled. -/
theorem Handled.keeps (sound : server.Sound) (tidy : server.lockManager.Tidy)
    (wired : request.Wired)
    (sole : ∀ tid, request = .p2c tid false → server.lockManager.SoleHolder tid)
    (handled : Handled getNode server rid event unset request server') :
    server'.lockManager.Tidy ∧
      ∀ tid, (∀ vote, request ≠ .p2c tid vote) → Keeps server server' request tid := by
  cases handled with
  | @read tid startTs key _ served unlocked ran =>
      have known : SimpleTServer.Sound
          { server with tidToNodes := insertNode server.tidToNodes tid (getNode key) } :=
        ⟨sound.lockManager, sound.reads⟩
      have taken : (server.takenUp getNode rid event tid startTs key).Sound :=
        known.setEvent event _ wired
      have grows := grows_runRead taken ran
      have reads := readsOnly_runRead ran
      refine ⟨grows.tidy tidy, fun other _ => .of_grows grows ?_ fun ready => ?_⟩
      · rw [reads.pendWrites]
        exact List.prefix_rfl
      · rw [reads.rdyToCommit]
        exact ready
  | @write tid key value served unlocked fresh =>
      refine ⟨tidy, fun other _ => .of_grows (.refl _) ?_ fun ready => ready⟩
      by_cases same : other = tid
      · subst same
        simp [SimpleTServer.replied, add]
      · simp [SimpleTServer.replied, add, same]
  | writeRefused | p1cRefused | p2cRefused =>
      exact ⟨tidy, fun other _ => .of_grows (.refl _) List.prefix_rfl fun ready => ready⟩
  | @p1c tid startTs commitTs _ _ nodes manager res known unlocked locked fresh =>
      obtain ⟨rfl, bound⟩ := wired
      have grows := grows_lockKeys sound.lockManager bound locked
      refine ⟨grows.tidy tidy, fun other _ => .of_grows grows List.prefix_rfl fun ready => ?_⟩
      by_cases same : other = tid
      · subst same
        simp [SimpleTServer.replied, prepare]
      · simpa [SimpleTServer.replied, prepare, same] using ready
  | @p2c tid vote nodes manager events server₁ known unlocked released ran fresh =>
      obtain ⟨tidy', keeps⟩ := keeps_of_p2c rid nodes sound tidy
        (fun aborts => sole tid (by rw [aborts])) released ran
      exact ⟨tidy', fun other own => keeps other fun same => own vote (by rw [same])⟩

/-- Versions are installed by the `TP2C` of the ID under which they have been kept. -/
theorem Handled.version (handled : Handled getNode server rid event unset request server')
    {key ts : Nat} {value : String} (found : server'.version key ts = some value) :
    server.version key ts = some value ∨ ∃ tid, request = .p2c tid true ∧
      server.rdyToCommit tid = some ts ∧ (key, value) ∈ (server.pendWrites tid).getD [] := by
  cases handled with
  | read served unlocked ran =>
      left
      rwa [SimpleTServer.version, (readsOnly_runRead ran).store] at found
  | write | writeRefused | p1c | p1cRefused | p2cRefused => exact .inl found
  | @p2c tid vote nodes manager events server₁ known unlocked released ran fresh =>
      have reads := readsOnly_runEvents ran
      have kept : server₁.version key ts = server.version key ts := by
        rw [SimpleTServer.version, reads.store]
        rfl
      replace found : (server₁.finalize tid vote).version key ts = some value := found
      rw [version_finalize, kept, reads.rdyToCommit, reads.pendWrites] at found
      split at found
      · next installs =>
          obtain ⟨rfl, ready⟩ := installs
          rcases Option.or_eq_some_iff.1 found with last | ⟨-, old⟩
          · exact .inr ⟨tid, rfl, ready, mem_of_lastWrite last⟩
          · exact .inl old
      · exact .inl found

end Mvtx.Server
