import Mvtx.Server.Wired

/-!
# Where reads are registered

A read is registered under the end of the write lock at which it is blocked.  If
the writer commits, the lock is frozen, and the read stops there for good; it
stays registered, but nobody gives up a frozen lock.  `Registered` says that
nothing else is registered, which holds as long as no transaction aborts for
which a read waits.
-/

namespace Mvtx.Server

open Lib Lock AVLTreeLockManager SimpleTServer

/-- The keys that a transaction has recorded. -/
def lockedKeys (manager : AVLTreeLockManager) (tid : Nat) : Finset Nat :=
  match manager.transactionMap tid with
  | none => ∅
  | some info => info.intervals.keys

/-- No read is registered at a write lock that a transaction would give up. -/
def Unawaited (manager : AVLTreeLockManager) (tid : Nat) : Prop :=
  ∀ key ∈ lockedKeys manager tid, ∀ lock ∈ manager.timeline key,
    met (manager.record tid key) lock = true → lock.status = .writeLock → tid ∈ lock.tids →
      manager.eventsAt key lock.endTs = ∅

instance (manager : AVLTreeLockManager) (tid : Nat) : Decidable (Unawaited manager tid) :=
  inferInstanceAs (Decidable (∀ key ∈ lockedKeys manager tid, ∀ lock ∈ manager.timeline key,
    met (manager.record tid key) lock = true → lock.status = .writeLock → tid ∈ lock.tids →
      manager.eventsAt key lock.endTs = ∅))

theorem mem_lockedKeys {manager : AVLTreeLockManager} {tid key low high : Nat}
    (recorded : manager.record tid key = some (low, high)) : key ∈ lockedKeys manager tid := by
  unfold lockedKeys
  cases known : manager.transactionMap tid with
  | none => simp [record, known] at recorded
  | some info =>
      have lookup : info.intervals.lookup key = some (low, high) := by
        simpa [record, known] using recorded
      exact Finmap.mem_keys.2 (Finmap.mem_of_lookup_eq_some lookup)

/--
Every event that is registered is that of a read, which goes on from a timestamp
in the interval with this end: it waits there for a writer, or the writer has
committed and the read has been answered or is to be run.
-/
structure Registered (waking : List Nat) (server : SimpleTServer) : Prop where
  sound : server.Sound
  phases : ∀ event state, server.readEvents event = some state →
    state.phase = 0 ∨ state.phase = 2
  waits : ∀ key tsEnd event, event ∈ server.lockManager.eventsAt key tsEnd →
    ∃ state, server.readEvents event = some state ∧ state.key = key ∧
      ∃ lock ∈ server.lockManager.timeline key, lock.endTs = tsEnd ∧
        lock.Covers (uintPred state.startTs) ∧
        (state.phase = 0 ∧ lock.status = .writeLock ∨
          lock.status = .freezeWriteLock ∧ (state.phase = 2 ∨ event ∈ waking))

variable {server server' : SimpleTServer} {waking : List Nat} {event : Nat}

theorem registered_first (nodes : Finset Nat) :
    Registered [] { SimpleTServer.initial with nodes := nodes } where
  sound :=
    { lockManager := .empty
      reads := by simp [SimpleTServer.initial] }
  phases := by simp [SimpleTServer.initial]
  waits := by simp [SimpleTServer.initial, AVLTreeLockManager.empty, eventsAt]

/-! ## Running a read event -/

theorem uintPred_uintSucc (x : Nat) : uintPred (uintSucc x) = x := by
  unfold uintPred uintSucc
  split <;> split <;> omega

theorem not_lockable_of_stops {status : LockStatus}
    (stops : status = .writeLock ∨ status = .freezeWriteLock) : ¬ status.Lockable true := by
  rcases stops with rfl | rfl <;> simp [LockStatus.Lockable]

theorem stops_of_not_passes {status : LockStatus} (stops : status.passes true = false) :
    status = .writeLock ∧ status.waits true = true ∨
      status = .freezeWriteLock ∧ status.waits true = false := by
  cases status <;> simp_all [LockStatus.passes, LockStatus.waits]

/-- A read that is run waits where it has stopped, or is answered there. -/
theorem Registered.runRead (registered : Registered (event :: waking) server)
    (ran : server.runRead event = .ok server') : Registered waking server' := by
  have sound' := registered.sound.runRead ran
  obtain ⟨sound, phases, waits⟩ := registered
  obtain ⟨state, present, ⟨phase, manager', res, low, returned, outcome⟩ | ⟨phase, -⟩⟩ :=
    runRead_cases ran
  swap
  · exact absurd (phases event state present) (by omega)
  have bound := uintPred_le (sound.reads event state present)
  obtain ⟨manager₁, stopTs, stop, returned₁, walks, -⟩ :=
    tryBackwardLock_walks sound.lockManager.trees bound state.key state.tid true event
      state.startTs
  rw [returned] at returned₁
  obtain ⟨rfl, rfl, rfl⟩ : manager' = manager₁ ∧ res = !stop.status.waits true ∧
      low = uintSucc stopTs := by simpa using returned₁
  have point : uintPred (uintSucc stopTs) = stopTs := uintPred_uintSucc stopTs
  have stopStatus := stops_of_not_passes walks.stops
  have stopKept : stop ∈ manager'.timeline state.key :=
    walks.kept walks.member (not_lockable_of_stops (stopStatus.imp And.left And.left))
  -- The events that were registered before, and this one if it must wait.
  have sources : ∀ key tsEnd other, other ∈ manager'.eventsAt key tsEnd →
      other ∈ server.lockManager.eventsAt key tsEnd ∨
        other = event ∧ key = state.key ∧ tsEnd = stop.endTs := by
    intro key tsEnd other member
    rw [walks.eventsAt] at member
    split at member
    · next here =>
        rcases Finset.mem_insert.1 member with rfl | old
        · exact .inr ⟨rfl, here.1, here.2.1⟩
        · exact .inl old
    · exact .inl member
  -- The other events keep their states; this one has the state `last`.
  have finish : ∀ last : ReadEvent, server'.lockManager = manager' →
      server'.readEvents = Function.update server.readEvents event (some last) →
      last.key = state.key → last.startTs = uintSucc stopTs →
      (last.phase = 0 ∧ stop.status = .writeLock ∨
        last.phase = 2 ∧ stop.status = .freezeWriteLock) → Registered waking server' := by
    intro last manager events key startTs isLast
    refine
      { sound := sound'
        phases := fun other state' present' => ?_
        waits := fun key' tsEnd other member => ?_ }
    · rw [events] at present'
      by_cases same : other = event
      · subst same
        obtain rfl : last = state' := by simpa using present'
        exact isLast.imp And.left And.left
      · exact phases other state' (by simpa [same] using present')
    · rw [manager] at member ⊢
      rw [events]
      by_cases same : other = event
      · subst same
        have here : key' = state.key ∧ tsEnd = stop.endTs := by
          rcases sources key' tsEnd other member with old | ⟨-, here⟩
          · -- It goes on from the interval under whose end it is registered already.
            obtain ⟨state', present', rfl, lock, inTimeline, rfl, covers, status⟩ :=
              waits key' tsEnd other old
            obtain rfl := Option.some.inj (present.symm.trans present')
            have stops : lock.status.passes true = false := by
              rcases status with ⟨-, status⟩ | ⟨status, -⟩ <;> rw [status] <;> rfl
            obtain ⟨-, rfl⟩ := walks.stays sound.lockManager.trees inTimeline covers stops
            exact ⟨rfl, rfl⟩
          · exact here
        obtain ⟨rfl, rfl⟩ := here
        refine ⟨last, Function.update_self .., key, stop, stopKept, rfl, ?_, ?_⟩
        · rw [startTs, point]
          exact walks.covers
        · exact isLast.imp_right fun ⟨phase, status⟩ => ⟨status, .inl phase⟩
      · have old := (sources key' tsEnd other member).resolve_right fun here => same here.1
        obtain ⟨state', present', known, lock, inTimeline, ends, covers, status⟩ :=
          waits key' tsEnd other old
        have kept := walks.kept inTimeline
          (not_lockable_of_stops (status.imp And.right And.left))
        refine ⟨state', by rwa [Function.update_of_ne same], known, lock, kept, ends, covers,
          status.imp_right fun ⟨frozen, woken⟩ => ⟨frozen, woken.imp_right fun member => ?_⟩⟩
        exact (List.mem_cons.1 member).resolve_left same
  rcases outcome with ⟨refused, rfl⟩ | ⟨accepted, answered⟩
  · refine finish { state with startTs := uintSucc stopTs } rfl rfl rfl rfl (.inl ⟨phase, ?_⟩)
    exact (stopStatus.resolve_right fun frozen => by simp [frozen.2] at refused).1
  · obtain ⟨value, -, -, rfl⟩ := answerRead_eq answered
    refine finish { state with startTs := uintSucc stopTs, phase := 2 } rfl rfl rfl rfl
      (.inr ⟨rfl, ?_⟩)
    exact (stopStatus.resolve_left fun locked => by simp [locked.2] at accepted).1

theorem Registered.runEvents {events : List Nat} (registered : Registered events server)
    (ran : SimpleTServer.runEvents events server = .ok server') : Registered [] server' := by
  induction events generalizing server with
  | nil =>
      obtain rfl := Except.ok.inj ran
      exact registered
  | cons event events ih =>
      rw [SimpleTServer.runEvents] at ran
      obtain ⟨server₁, first, rest⟩ := exists_of_bind ran
      exact ih (registered.runRead first) rest

/-! ## Handling a request -/

/-- An abort ends no transaction for which a read waits. -/
def SimpleTServer.AbortsUnawaited (server : SimpleTServer) : Request → Prop
  | .p2c tid vote => vote = false → Unawaited server.lockManager tid
  | .read _ _ _ | .write _ _ _ | .p1c _ _ _ _ _ => True

instance (server : SimpleTServer) (request : Request) :
    Decidable (server.AbortsUnawaited request) :=
  match request with
  | .p2c tid vote => inferInstanceAs (Decidable (vote = false → Unawaited server.lockManager tid))
  | .read _ _ _ | .write _ _ _ | .p1c _ _ _ _ _ => inferInstanceAs (Decidable True)

/-- What leaves the read events alone, and the locks at which reads stop. -/
theorem Registered.frame {waking' : List Nat} (registered : Registered waking server)
    (sound : server'.Sound) (readEvents : server'.readEvents = server.readEvents)
    (eventsAt : ∀ key ts, server'.lockManager.eventsAt key ts = server.lockManager.eventsAt key ts)
    (kept : ∀ key, ∀ lock ∈ server.lockManager.timeline key, ∀ event,
      event ∈ server.lockManager.eventsAt key lock.endTs →
      lock.status = .writeLock ∨ lock.status = .freezeWriteLock →
      ∃ lock' ∈ server'.lockManager.timeline key, lock'.startTs = lock.startTs ∧
        lock'.endTs = lock.endTs ∧
        (lock'.status = lock.status ∨ lock'.status = .freezeWriteLock ∧ event ∈ waking'))
    (more : waking ⊆ waking') : Registered waking' server' where
  sound := sound
  phases := by
    rw [readEvents]
    exact registered.phases
  waits := by
    intro key tsEnd event member
    rw [eventsAt] at member
    obtain ⟨state, present, known, lock, inTimeline, rfl, covers, status⟩ :=
      registered.waits key tsEnd event member
    obtain ⟨lock', inTimeline', starts, ends, status'⟩ :=
      kept key lock inTimeline event member (status.imp And.right And.left)
    refine ⟨state, by rwa [readEvents], known, lock', inTimeline', ends, ?_, ?_⟩
    · exact ⟨starts.le.trans covers.1, covers.2.trans ends.symm.le⟩
    · rcases status' with same | ⟨frozen, woken⟩
      · rw [same]
        exact status.imp_right fun ⟨frozen, woken⟩ => ⟨frozen, woken.imp_right fun woken =>
          more woken⟩
      · exact .inr ⟨frozen, .inr woken⟩

/-- What is locked for writing is not taken over by another `TP1C`. -/
theorem kept_lockKeys {manager manager' : AVLTreeLockManager} {tid ts : Nat} {keys : List Nat}
    {res : Bool} (sound : manager.Sound) (bound : ts ≤ uintMax)
    (locked : lockKeys tid ts ts keys manager = .ok (manager', res)) :
    manager'.Sound ∧ (∀ key ts, manager'.eventsAt key ts = manager.eventsAt key ts) ∧
      ∀ key, ∀ lock ∈ manager.timeline key,
        lock.status = .writeLock ∨ lock.status = .freezeWriteLock →
          lock ∈ manager'.timeline key := by
  refine lockKeys_induction (fun manager' => manager'.Sound ∧
    (∀ key ts, manager'.eventsAt key ts = manager.eventsAt key ts) ∧
      ∀ key, ∀ lock ∈ manager.timeline key,
        lock.status = .writeLock ∨ lock.status = .freezeWriteLock →
          lock ∈ manager'.timeline key)
    ⟨sound, fun _ _ => rfl, fun _ _ member _ => member⟩ ?_ locked
  rintro manager₁ manager₂ key res ⟨sound₁, events, kept⟩ returned
  have sound₂ := sound_tryLock sound₁ bound returned
  obtain ⟨manager₃, lock, -, -, ⟨-, returned', -, same⟩ | ⟨pends, visit, -, returned', takes⟩⟩ :=
    tryLock_point_trees sound₁.trees key bound tid false
  all_goals
    rw [returned] at returned'
    obtain ⟨rfl, -⟩ := Prod.mk.inj (Except.ok.inj returned')
  · refine ⟨sound₂, fun key ts => (same.eventsAt key ts).trans (events key ts),
      fun other lock' member status => ?_⟩
    rw [same.timeline]
    exact kept other lock' member status
  · refine ⟨sound₂, fun key ts => (takes.eventsAt key ts).trans (events key ts),
      fun other lock' member status => ?_⟩
    rw [takes.timeline]
    split
    · next here =>
        subst here
        refine List.mem_flatMap.2 ⟨lock', kept other lock' member status, ?_⟩
        have unchosen : lock' ∉ (if pends then [lock] else []) := by
          intro chosen
          have free := (takes.collected lock' chosen).2.1
          rcases status with status | status <;> simp [searchVisit, status] at free
        simp [unchosen]
    · exact kept other lock' member status

/-- Whoever holds a write lock freezes it, and wakes the reads that wait there. -/
theorem Registered.released {tid : Nat} {vote : Bool} {manager : AVLTreeLockManager}
    {events : Finset Nat} (registered : Registered [] server)
    (spares : vote = false → Unawaited server.lockManager tid)
    (released : (if vote then server.lockManager.freeze tid else server.lockManager.unlock tid) =
      .ok (manager, events)) (nodes : Nat → Option (Finset Nat)) :
    Registered (ascending events)
      { server with
        tidToNodes := nodes
        lockManager := manager } := by
  cases vote with
  | false =>
      obtain ⟨scans, sound⟩ :=
        registered.sound.lockManager.release (lawfulVisit_unlockVisit tid) released
      refine registered.frame ⟨sound, registered.sound.reads⟩ rfl scans.eventsAt
        (fun key lock member event here status => ?_) (List.nil_subset _)
      refine ⟨_, (scans.timeline key).symm ▸ List.mem_map_of_mem member, ?_⟩
      have same : Lock.released (unlockVisit tid) (server.lockManager.record tid key) lock =
          lock := by
        unfold Lock.released
        split
        · next isMet =>
            rcases status with status | status
            · -- A read is registered here, so the transaction that aborts does not hold the lock.
              have unheld : tid ∉ lock.tids := by
                intro holds
                cases recorded : server.lockManager.record tid key with
                | none => simp [recorded, met] at isMet
                | some range =>
                    have none' := spares rfl key (mem_lockedKeys recorded) lock member isMet status
                      holds
                    simp [none'] at here
              simp [unlockVisit, status, unheld]
            · simp [unlockVisit, status]
        · rfl
      rw [same]
      exact ⟨rfl, rfl, .inl rfl⟩
  | true =>
      obtain ⟨scans, sound⟩ :=
        registered.sound.lockManager.release (lawfulVisit_freezeVisit tid) released
      refine registered.frame ⟨sound, registered.sound.reads⟩ rfl scans.eventsAt
        (fun key lock member event here status => ?_) (List.nil_subset _)
      have lawful := lawfulVisit_freezeVisit tid
      refine ⟨_, (scans.timeline key).symm ▸ List.mem_map_of_mem member,
        lawful.released_startTs _ _, lawful.released_endTs _ _, ?_⟩
      by_cases frozen : met (server.lockManager.record tid key) lock = true ∧ tid ∈ lock.tids ∧
          lock.status = .writeLock
      · obtain ⟨isMet, holds, status⟩ := frozen
        refine .inr ⟨by simp [Lock.released, isMet, freezeVisit, status, holds], ?_⟩
        exact mem_ascending.2 ((scans.collected event).2
          ⟨key, lock, member, isMet, by simp [freezeVisit, status, holds], here⟩)
      · left
        unfold Lock.released
        split
        · next isMet =>
            rcases status with status | status
            · have unheld : tid ∉ lock.tids := fun holds => frozen ⟨isMet, holds, status⟩
              simp [freezeVisit, status, unheld]
            · simp [freezeVisit, status]
        · rfl

variable {getNode : Nat → Nat} {rid : Nat} {unset : Bool} {request : Request}

/-- A read that has been taken up is registered nowhere. -/
theorem Registered.takenUp {tid startTs key : Nat} (registered : Registered [] server)
    (bound : startTs ≤ uintMax) (new : server.readEvents event = none) :
    Registered [event] (server.takenUp getNode rid event tid startTs key) := by
  have sources : ∀ other state,
      (server.takenUp getNode rid event tid startTs key).readEvents other = some state →
      state = ⟨rid, tid, startTs, key, 0⟩ ∨ server.readEvents other = some state := by
    intro other state present
    by_cases same : other = event
    · subst same
      exact .inl (by simpa [SimpleTServer.takenUp, setEvent] using present.symm)
    · exact .inr (by simpa [SimpleTServer.takenUp, setEvent, same] using present)
  refine
    { sound := ⟨registered.sound.lockManager, fun other state present => ?_⟩
      phases := fun other state present => ?_
      waits := fun key' tsEnd other member => ?_ }
  · rcases sources other state present with rfl | old
    · exact bound
    · exact registered.sound.reads other state old
  · rcases sources other state present with rfl | old
    · exact .inl rfl
    · exact registered.phases other state old
  · obtain ⟨state, present, known, lock, inTimeline, ends, covers, status⟩ :=
      registered.waits key' tsEnd other member
    have differs : other ≠ event := by
      rintro rfl
      simp [new] at present
    refine ⟨state, by simpa [SimpleTServer.takenUp, setEvent, differs] using present, known, lock,
      inTimeline, ends, covers, status.imp_right fun later => later.imp_right fun woken => ?_⟩
    exact woken.imp_right fun member => absurd member List.not_mem_nil

/-- Whatever request is handled, every read that is registered waits or has been answered. -/
theorem Registered.handled (registered : Registered [] server) (wired : request.Wired)
    (new : server.readEvents event = none) (spares : server.AbortsUnawaited request)
    (handled : Handled getNode server rid event unset request server') :
    Registered [] server' := by
  have sound := registered.sound.handled wired handled
  cases handled with
  | read served unlocked ran => exact (registered.takenUp wired new).runRead ran
  | write | writeRefused | p1cRefused | p2cRefused =>
      exact ⟨sound, registered.phases, registered.waits⟩
  | p1c known unlocked locked fresh =>
      obtain ⟨rfl, bound⟩ := wired
      obtain ⟨-, events, kept⟩ := kept_lockKeys registered.sound.lockManager bound locked
      exact registered.frame sound rfl events
        (fun key lock member event _ status =>
          ⟨lock, kept key lock member status, rfl, rfl, .inl rfl⟩) (List.Subset.refl _)
  | @p2c tid vote nodes manager events server₁ known unlocked released ran fresh =>
      have after := (registered.released spares released _).runEvents ran
      obtain ⟨store, pendWrites, rdyToCommit, same, -⟩ := finalize_eq server₁ tid vote
      rw [same] at sound ⊢
      exact ⟨sound, after.phases, after.waits⟩

end Mvtx.Server
