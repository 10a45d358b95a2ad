import Mvtx.Lock.Holders
import Mvtx.Server.Handle

/-!
# Reads that wait are blocked

A read is answered in the handler that takes it up, or in one that gives up the
write lock which it has met.  `Wakeful` says that every read that has not been
answered is blocked at a write lock.  Within a handler that has given up locks
this fails for the reads that are still to be woken up.
-/

namespace Mvtx.Server

open Lib Lock AVLTreeLockManager SimpleTServer

/-- A read that has not been answered. -/
structure SimpleTServer.Waits (server : SimpleTServer) (state : ReadEvent) : Prop where
  phase : state.phase = 0
  fresh : server.replies state.rid = none
  known : server.tidToNodes state.tid ≠ none
  timely : 1 ≤ state.startTs ∧ state.startTs ≤ uintMax

/-- Every read has been answered, or is blocked, or is among those still to be run. -/
structure Wakeful (waking : List Nat) (server : SimpleTServer) : Prop where
  held : Held (fun tid => server.rdyToCommit tid ≠ none) server.lockManager
  recorded : ∀ tid key, server.lockManager.record tid key ≠ none → server.tidToNodes tid ≠ none
  registered : ∀ key ts event, event ∈ server.lockManager.eventsAt key ts →
    ∃ state, server.readEvents event = some state ∧ state.key = key
  distinct : ∀ event event' state state', server.readEvents event = some state →
    server.readEvents event' = some state' → state.rid = state'.rid → event = event'
  reads : ∀ event state, server.readEvents event = some state →
    server.Waits state ∧
        (event ∈ waking ∨
          server.lockManager.Blocked state.key (state.startTs - 1) event) ∨
      state.phase = 2 ∧ ∃ value, server.replies state.rid = some (.read value true)

variable {server server' : SimpleTServer} {waking : List Nat} {event : Nat}

theorem Wakeful.initial : Wakeful [] .initial where
  held := .empty
  recorded := by simp [SimpleTServer.initial, AVLTreeLockManager.empty, record]
  registered := by simp [SimpleTServer.initial, AVLTreeLockManager.empty, eventsAt]
  distinct := by simp [SimpleTServer.initial]
  reads := by simp [SimpleTServer.initial]

/-! ## Running a read event -/

/-- What the scan of a read does to the lock manager. -/
structure Scanned (manager : AVLTreeLockManager) (state : ReadEvent) (event : Nat)
    (manager' : AVLTreeLockManager) (res : Bool) (low : Nat) : Prop where
  positive : 1 ≤ low
  le : low ≤ state.startTs
  acquired : Acquired manager state.key state.tid true low (state.startTs - 1) manager'
  more : ∀ key ts, manager.eventsAt key ts ⊆ manager'.eventsAt key ts
  registered : ∀ key ts other, other ∈ manager'.eventsAt key ts →
    other ∈ manager.eventsAt key ts ∨ key = state.key ∧ other = event
  blocked : res = false → manager'.Blocked state.key (low - 1) event

theorem exists_scanned {manager : AVLTreeLockManager} {state : ReadEvent} (event : Nat)
    (wellFormed : manager.WellFormed) (timely : 1 ≤ state.startTs ∧ state.startTs ≤ uintMax) :
    ∃ manager' res low,
      manager.tryBackwardLock state.key state.tid (uintPred state.startTs) true event
          state.startTs = .ok (manager', res, low) ∧
        Scanned manager state event manager' res low := by
  rw [uintPred_eq timely.1]
  obtain ⟨manager', stopTs, stop, returned, effect⟩ :=
    tryBackwardLock_eq wellFormed (show state.startTs - 1 < uintMax by omega) state.key state.tid
      true event state.startTs
  have le := effect.le
  refine ⟨manager', _, _, returned,
    { positive := Nat.succ_pos _
      le := by omega
      acquired := effect.acquired
      more := fun key ts => ?_
      registered := fun key ts other member => ?_
      blocked := fun refused => ?_ }⟩
  · rw [effect.eventsAt]
    split
    · exact Finset.subset_insert _ _
    · exact Finset.Subset.refl _
  · rw [effect.eventsAt] at member
    split at member
    · next here =>
        rcases Finset.mem_insert.1 member with rfl | old
        · exact .inr ⟨here.1, rfl⟩
        · exact .inl old
    · exact .inl member
  · have waits : stop.status.waits true = true := by simpa using refused
    have status : stop.status = .writeLock := by
      cases status : stop.status <;> simp_all [LockStatus.waits]
    have covering : manager.covering state.key stopTs = some stop :=
      (covering_eq_some wellFormed.trees).2 ⟨effect.member, effect.covers⟩
    refine ⟨stop, ?_, status, ?_⟩
    · rw [Nat.add_sub_cancel]
      exact effect.acquired.covering wellFormed covering (status ▸ not_lockable_writeLock)
    · rw [effect.eventsAt, if_pos ⟨rfl, rfl, waits⟩]
      exact Finset.mem_insert_self _ _

/-- A read that is run is answered or blocked afterwards. -/
theorem Wakeful.runRead (wakeful : Wakeful (event :: waking) server)
    (ran : server.runRead event = .ok server') : Wakeful waking server' := by
  obtain ⟨state, present, cases⟩ := runRead_cases ran
  obtain ⟨held, recorded, registered, distinct, reads⟩ := wakeful
  -- An event that has been answered could not have been run.
  obtain ⟨phase, manager', res, low, returned, outcome⟩ := cases.resolve_right fun answered => by
    rcases reads event state present with ⟨waits, -⟩ | ⟨phase, -⟩
    · exact absurd (waits.phase.symm.trans answered.1) (by decide)
    · exact absurd (phase.symm.trans answered.1) (by decide)
  have waits : server.Waits state := by
    rcases reads event state present with ⟨waits, -⟩ | ⟨answered, -⟩
    · exact waits
    · exact absurd (phase.symm.trans answered) (by decide)
  obtain ⟨manager₁, res₁, low₁, returned₁, scanned⟩ :=
    exists_scanned event held.wellFormed waits.timely
  rw [returned] at returned₁
  obtain ⟨rfl, rfl, rfl⟩ : manager' = manager₁ ∧ res = res₁ ∧ low = low₁ := by
    simpa using returned₁
  have held' : Held (fun tid => server.rdyToCommit tid ≠ none) manager' :=
    held.acquired scanned.acquired (by simp)
  have recorded' : ∀ tid key, manager'.record tid key ≠ none → server.tidToNodes tid ≠ none := by
    intro tid key known
    rw [scanned.acquired.record] at known
    split at known
    · next same => exact same.1 ▸ waits.known
    · exact recorded tid key known
  have blocked' : ∀ key ts other, server.lockManager.Blocked key ts other →
      manager'.Blocked key ts other := fun key ts other blocked =>
    Blocked.acquired blocked held.wellFormed scanned.acquired scanned.more
  have readsOnly := readsOnly_runRead ran
  -- The other events keep their states; this one has the state `last`.
  have finish : ∀ (last : ReadEvent), server'.lockManager = manager' →
      server'.readEvents = Function.update server.readEvents event (some last) →
      last.key = state.key → last.rid = state.rid →
      (∀ rid, rid ≠ state.rid → server'.replies rid = server.replies rid) →
      (server'.Waits last ∧ server'.lockManager.Blocked last.key (last.startTs - 1) event ∨
        last.phase = 2 ∧ ∃ value, server'.replies last.rid = some (.read value true)) →
      Wakeful waking server' := by
    intro last manager events key rid replies isLast
    have sources : ∀ other state', server'.readEvents other = some state' →
        other = event ∧ state' = last ∨ other ≠ event ∧ server.readEvents other = some state' := by
      intro other state' present'
      rw [events] at present'
      by_cases same : other = event
      · subst same
        exact .inl ⟨rfl, by simpa using present'.symm⟩
      · exact .inr ⟨same, by simpa [same] using present'⟩
    refine
      { held := ?_
        recorded := by rwa [manager, readsOnly.tidToNodes]
        registered := fun key' ts other member => ?_
        distinct := fun e e' s s' here here' same => ?_
        reads := fun other state' present' => ?_ }
    · rw [manager, readsOnly.rdyToCommit]
      exact held'
    · rw [manager] at member
      rw [events]
      by_cases same : other = event
      · subst same
        refine ⟨last, Function.update_self .., key.trans ?_⟩
        rcases scanned.registered key' ts other member with old | ⟨rfl, -⟩
        · obtain ⟨state', present', known⟩ := registered key' ts other old
          rw [present] at present'
          rw [← known, Option.some.inj present']
        · rfl
      · rw [Function.update_of_ne same]
        refine registered key' ts other ?_
        exact (scanned.registered key' ts other member).resolve_right fun here => same here.2
    · rcases sources e s here with ⟨rfl, rfl⟩ | ⟨differs, old⟩ <;>
        rcases sources e' s' here' with ⟨rfl, rfl⟩ | ⟨differs', old'⟩
      · rfl
      · exact distinct _ _ _ _ present old' (rid.symm.trans same)
      · exact distinct _ _ _ _ old present (same.trans rid)
      · exact distinct _ _ _ _ old old' same
    · rcases sources other state' present' with ⟨rfl, rfl⟩ | ⟨differs, old⟩
      · exact isLast.imp_left fun ⟨waits', blocked⟩ => ⟨waits', .inr blocked⟩
      · have other_rid : state'.rid ≠ state.rid := fun same =>
          differs (distinct _ _ _ _ old present same)
        rcases reads other state' old with ⟨waits', wakes⟩ | ⟨answered, value, replied⟩
        · refine .inl ⟨⟨waits'.phase, ?_, ?_, waits'.timely⟩, ?_⟩
          · rw [replies _ other_rid]
            exact waits'.fresh
          · rw [readsOnly.tidToNodes]
            exact waits'.known
          · rw [manager]
            rcases wakes with member | blocked
            · exact .inl ((List.mem_cons.1 member).resolve_left differs)
            · exact .inr (blocked' _ _ _ blocked)
        · exact .inr ⟨answered, value, readsOnly.reply_kept replied⟩
  rcases outcome with ⟨rfl, rfl⟩ | ⟨rfl, answered⟩
  · refine finish { state with startTs := low } rfl rfl rfl rfl (fun _ _ => rfl) (.inl ⟨?_, ?_⟩)
    · have le := scanned.le
      exact ⟨phase, waits.fresh, waits.known, scanned.positive, le.trans waits.timely.2⟩
    · exact scanned.blocked rfl
  · obtain ⟨value, -, fresh, rfl⟩ := answerRead_eq answered
    refine finish { state with startTs := low, phase := 2 } rfl rfl rfl rfl
      (fun rid differs => Function.update_of_ne differs ..) (.inr ⟨rfl, value, ?_⟩)
    exact Function.update_self ..

theorem Wakeful.runEvents {events : List Nat} (wakeful : Wakeful events server)
    (ran : SimpleTServer.runEvents events server = .ok server') : Wakeful [] server' := by
  induction events generalizing server with
  | nil =>
      obtain rfl := Except.ok.inj ran
      exact wakeful
  | cons event events ih =>
      obtain ⟨server₁, first, rest⟩ := exists_of_bind ran
      exact ih (wakeful.runRead first) rest

/-! ## Handling a request -/

/-- What does not change the states of the read events. -/
theorem Wakeful.frame {waking' : List Nat} (wakeful : Wakeful waking server)
    (held : Held (fun tid => server'.rdyToCommit tid ≠ none) server'.lockManager)
    (recorded : ∀ tid key, server'.lockManager.record tid key ≠ none →
      server'.tidToNodes tid ≠ none)
    (eventsAt : ∀ key ts, server'.lockManager.eventsAt key ts = server.lockManager.eventsAt key ts)
    (readEvents : server'.readEvents = server.readEvents)
    (replies : ∀ event state, server.readEvents event = some state →
      server'.replies state.rid = server.replies state.rid)
    (known : ∀ event state, server.readEvents event = some state →
      server.replies state.rid = none → server.tidToNodes state.tid ≠ none →
      server'.tidToNodes state.tid ≠ none)
    (more : waking ⊆ waking')
    (blocked : ∀ key ts event, server.lockManager.Blocked key ts event →
      event ∈ waking' ∨ server'.lockManager.Blocked key ts event) :
    Wakeful waking' server' where
  held := held
  recorded := recorded
  registered := by
    intro key ts event member
    rw [eventsAt] at member
    rw [readEvents]
    exact wakeful.registered key ts event member
  distinct := by
    rw [readEvents]
    exact wakeful.distinct
  reads := by
    intro event state present
    rw [readEvents] at present
    rw [replies event state present]
    rcases wakeful.reads event state present with ⟨waits, wakes⟩ | answered
    · refine .inl ⟨?_, ?_⟩
      · exact
          { phase := waits.phase
            fresh := (replies event state present).trans waits.fresh
            known := known event state present waits.fresh waits.known
            timely := waits.timely }
      · rcases wakes with member | isBlocked
        · exact .inl (more member)
        · exact blocked _ _ _ isBlocked
    · exact .inr answered

/-- What each `tryLock` preserves, locking the keys of a transaction preserves. -/
theorem lockKeys_induction (Invariant : AVLTreeLockManager → Prop)
    {manager manager' : AVLTreeLockManager} {tid startTs commitTs : Nat} {keys : List Nat}
    {res : Bool} (initially : Invariant manager)
    (preserved : ∀ manager manager' key res, Invariant manager →
      manager.tryLock key tid startTs commitTs false = .ok (manager', res) → Invariant manager')
    (returned : lockKeys tid startTs commitTs keys manager = .ok (manager', res)) :
    Invariant manager' := by
  induction keys generalizing manager with
  | nil =>
      obtain ⟨rfl, rfl⟩ := Prod.mk.inj (Except.ok.inj returned)
      exact initially
  | cons key keys ih =>
      rw [lockKeys] at returned
      obtain ⟨⟨manager₁, res₁⟩, first, rest⟩ := exists_of_bind returned
      have next := preserved _ _ _ _ initially first
      cases res₁ with
      | false =>
          obtain ⟨rfl, rfl⟩ := Prod.mk.inj (Except.ok.inj rest)
          exact next
      | true => exact ih next rest

/-- What locking the keys of a transaction does to the lock manager. -/
structure Secured (prepared : Nat → Prop) (manager : AVLTreeLockManager) (tid : Nat)
    (manager' : AVLTreeLockManager) : Prop where
  held : Held prepared manager'
  eventsAt : ∀ key ts, manager'.eventsAt key ts = manager.eventsAt key ts
  blocked : ∀ key ts event, manager.Blocked key ts event → manager'.Blocked key ts event
  record : ∀ other key, manager'.record other key ≠ none →
    other = tid ∨ manager.record other key ≠ none

section Secured

variable {prepared : Nat → Prop} {manager manager' : AVLTreeLockManager} {tid ts : Nat}

theorem secured_tryLock (held : Held prepared manager) (ready : prepared tid)
    (bound : ts < uintMax) {key : Nat} {res : Bool}
    (returned : manager.tryLock key tid ts ts false = .ok (manager', res)) :
    Secured prepared manager tid manager' := by
  obtain ⟨manager₁, lock, -, -, ⟨-, returned₁, wellFormed, same⟩ |
    ⟨pends, -, returned₁, locked⟩⟩ := tryLock_point held.wellFormed key bound tid false
  all_goals
    rw [returned] at returned₁
    obtain ⟨rfl, rfl⟩ := Prod.mk.inj (Except.ok.inj returned₁)
  · refine
      { held := held.sameView same wellFormed
        eventsAt := same.eventsAt
        blocked := fun other ts event ⟨lock, covering, rest⟩ => ⟨lock, ?_, ?_⟩
        record := fun other key known => .inr (same.record other key ▸ known) }
    · rw [AVLTreeLockManager.covering, same.timeline]
      exact covering
    · rwa [same.eventsAt]
  · refine
      { held := held.acquired locked.acquired fun _ => ready
        eventsAt := locked.eventsAt
        blocked := fun other ts event blocked => Blocked.acquired blocked held.wellFormed
          locked.acquired fun key ts => (locked.eventsAt key ts).symm ▸ Finset.Subset.refl _
        record := fun other key known => ?_ }
    rw [locked.record] at known
    split at known
    · next same => exact .inl same.1
    · exact .inr known

theorem Secured.trans {manager'' : AVLTreeLockManager}
    (secured : Secured prepared manager tid manager')
    (secured' : Secured prepared manager' tid manager'') :
    Secured prepared manager tid manager'' where
  held := secured'.held
  eventsAt := fun key ts => (secured'.eventsAt key ts).trans (secured.eventsAt key ts)
  blocked := fun key ts event blocked =>
    secured'.blocked key ts event (secured.blocked key ts event blocked)
  record := fun other key known =>
    (secured'.record other key known).elim .inl (secured.record other key)

theorem secured_lockKeys {keys : List Nat} {res : Bool} (held : Held prepared manager)
    (ready : prepared tid) (bound : ts < uintMax)
    (returned : lockKeys tid ts ts keys manager = .ok (manager', res)) :
    Secured prepared manager tid manager' :=
  lockKeys_induction (Secured prepared manager tid)
    ⟨held, fun _ _ => rfl, fun _ _ _ blocked => blocked, fun _ _ known => .inr known⟩
    (fun _ _ _ _ secured locked =>
      secured.trans (secured_tryLock secured.held ready bound locked)) returned

end Secured

variable {getNode : Nat → Nat} {rid : Nat} {unset : Bool} {request : Request}

/-- What Coordinators keep to, as far as the reads of the server rely on it. -/
def SimpleTServer.Proper (server : SimpleTServer) : Request → Prop
  | .read _ startTs _ => 1 ≤ startTs ∧ startTs ≤ uintMax
  | .write _ _ _ => True
  | .p1c tid startTs commitTs _ _ => startTs = commitTs ∧ commitTs < uintMax ∧
      (server.tidToWriteNodes tid ≠ none → server.tidToNodes tid ≠ none)
  | .p2c tid _ => ∀ event state, server.readEvents event = some state → state.tid = tid →
      server.replies state.rid ≠ none

theorem insertNode_ne_none {map : Nat → Option (Finset Nat)} {tid node other : Nat}
    (known : map other ≠ none) : insertNode map tid node other ≠ none := by
  by_cases same : other = tid
  · subst same
    simp [insertNode]
  · simpa [insertNode, same] using known

/-- A read that has been taken up is still to be run. -/
theorem Wakeful.takenUp {tid startTs key : Nat} (wakeful : Wakeful [] server)
    (new : server.readEvents event = none) (unsent : server.replies rid = none)
    (fresh : ∀ other state, server.readEvents other = some state → state.rid ≠ rid)
    (timely : 1 ≤ startTs ∧ startTs ≤ uintMax) :
    Wakeful [event] (server.takenUp getNode rid event tid startTs key) := by
  have sources : ∀ other state,
      (server.takenUp getNode rid event tid startTs key).readEvents other = some state →
      other = event ∧
          state = { rid := rid, tid := tid, startTs := startTs, key := key, phase := 0 } ∨
        other ≠ event ∧ server.readEvents other = some state := by
    intro other state present
    by_cases same : other = event
    · subst same
      exact .inl ⟨rfl, by simpa [SimpleTServer.takenUp, setEvent] using present.symm⟩
    · exact .inr ⟨same, by simpa [SimpleTServer.takenUp, setEvent, same] using present⟩
  refine
    { held := wakeful.held
      recorded := fun other key' recorded =>
        insertNode_ne_none (wakeful.recorded other key' recorded)
      registered := fun key' ts other member => ?_
      distinct := fun e e' s s' here here' same => ?_
      reads := fun other state present => ?_ }
  · obtain ⟨state, present, known⟩ := wakeful.registered key' ts other member
    have differs : other ≠ event := by
      rintro rfl
      simp [new] at present
    exact ⟨state, by simpa [SimpleTServer.takenUp, setEvent, differs] using present, known⟩
  · rcases sources e s here with ⟨rfl, rfl⟩ | ⟨-, old⟩ <;>
      rcases sources e' s' here' with ⟨rfl, rfl⟩ | ⟨-, old'⟩
    · rfl
    · exact absurd same.symm (fresh _ _ old')
    · exact absurd same (fresh _ _ old)
    · exact wakeful.distinct _ _ _ _ old old' same
  · rcases sources other state present with ⟨rfl, rfl⟩ | ⟨differs, old⟩
    · refine .inl ⟨⟨rfl, unsent, ?_, timely⟩, .inl (List.mem_singleton_self _)⟩
      simp [SimpleTServer.takenUp, setEvent, insertNode]
    · rcases wakeful.reads other state old with ⟨waits, wakes⟩ | answered
      · refine .inl ⟨⟨waits.phase, waits.fresh, ?_, waits.timely⟩, .inr ?_⟩
        · exact insertNode_ne_none waits.known
        · exact wakes.resolve_left (List.not_mem_nil)
      · exact .inr answered

/-- A transaction that ends gives up its locks, and the reads that it blocks are to be run. -/
theorem Wakeful.released {tid : Nat} {visit : Interval → Interval × Bool}
    {manager : AVLTreeLockManager} {events : Finset Nat}
    (wakeful : Wakeful [] server) (lets : LetsGo visit tid)
    (released : Released visit server.lockManager tid manager events)
    (ended : server.Proper (.p2c tid true)) :
    Wakeful (ascending events)
      { server with
        tidToNodes := Function.update server.tidToNodes tid none
        lockManager := manager } := by
  refine wakeful.frame (wakeful.held.released released lets) (fun other key recorded => ?_)
    released.eventsAt rfl (fun _ _ _ => rfl) (fun event state present fresh known => ?_)
    (List.nil_subset _) (fun key ts event blocked => ?_)
  · rw [released.record] at recorded
    split at recorded
    · exact absurd rfl recorded
    · next differs => simpa [differs] using wakeful.recorded other key recorded
  · have differs : state.tid ≠ tid := fun same => ended event state present same fresh
    simpa [differs] using known
  · exact (Blocked.released blocked wakeful.held.wellFormed released lets).imp_left
      mem_ascending.2

/-- Whatever request is handled, no read is forgotten. -/
theorem Wakeful.handled (wakeful : Wakeful [] server)
    (handled : Handled getNode server rid event unset request server')
    (new : ∀ tid startTs key, request = .read tid startTs key → server.readEvents event = none)
    (unsent : server.replies rid = none)
    (fresh : ∀ other state, server.readEvents other = some state → state.rid ≠ rid)
    (proper : server.Proper request) : Wakeful [] server' := by
  have others : ∀ reply event state, server.readEvents event = some state →
      Function.update server.replies rid (some reply) state.rid = server.replies state.rid :=
    fun reply event state present => Function.update_of_ne (fresh event state present) ..
  have stays : ∀ key ts event, server.lockManager.Blocked key ts event →
      event ∈ ([] : List Nat) ∨ server.lockManager.Blocked key ts event :=
    fun key ts event blocked => .inr blocked
  cases handled with
  | read served unlocked ran => exact (wakeful.takenUp (new _ _ _ rfl) unsent fresh proper).runRead ran
  | write served unlocked _ =>
      exact wakeful.frame wakeful.held
        (fun tid key recorded => insertNode_ne_none (wakeful.recorded tid key recorded))
        (fun _ _ => rfl) rfl (others _)
        (fun _ _ _ _ known => insertNode_ne_none known) (List.Subset.refl _) stays
  | writeRefused refused _ =>
      exact wakeful.frame wakeful.held wakeful.recorded (fun _ _ => rfl) rfl (others _)
        (fun _ _ _ _ known => known) (List.Subset.refl _) stays
  | p1cRefused refused unlocked _ =>
      exact wakeful.frame wakeful.held wakeful.recorded (fun _ _ => rfl) rfl (others _)
        (fun _ _ _ _ known => known) (List.Subset.refl _) stays
  | p2cRefused refused unlocked _ =>
      exact wakeful.frame wakeful.held wakeful.recorded (fun _ _ => rfl) rfl (others _)
        (fun _ _ _ _ known => known) (List.Subset.refl _) stays
  | @p1c tid startTs commitTs readNodes writeNodes nodes manager res known unlocked locked _ =>
      obtain ⟨rfl, bound, taken⟩ := proper
      have prepared : ∀ other, server.rdyToCommit other ≠ none →
          Function.update server.rdyToCommit tid (some startTs) other ≠ none := by
        intro other ready
        by_cases same : other = tid
        · subst same
          simp
        · simpa [same] using ready
      have held : Held (fun other =>
          Function.update server.rdyToCommit tid (some startTs) other ≠ none)
          server.lockManager := wakeful.held.mono fun other _ ready => prepared other ready
      have secured := secured_lockKeys held (by simp) bound locked
      refine wakeful.frame secured.held (fun other key recorded => ?_) secured.eventsAt rfl
        (others _) (fun _ _ _ _ known => known) (List.Subset.refl _)
        (fun key ts event blocked => .inr (secured.blocked key ts event blocked))
      rcases secured.record other key recorded with rfl | old
      · exact taken (by simp [known])
      · exact wakeful.recorded other key old
  | @p2c tid vote nodes manager events server₁ known unlocked released ran _ =>
      obtain ⟨visit, lets, release⟩ := exists_letsGo wakeful.held.wellFormed released
      have before := wakeful.released lets release proper
      have woken := before.runEvents ran
      have reads := readsOnly_runEvents ran
      obtain ⟨store, pendWrites, rdyToCommit, same, -, others', -⟩ := finalize_eq server₁ tid vote
      have forgotten : ∀ key, server₁.lockManager.record tid key = none := by
        intro key
        by_contra recorded
        refine woken.recorded tid key recorded ?_
        simp [reads.tidToNodes]
      rw [same]
      refine woken.frame (woken.held.mono fun other recorded ready => ?_) woken.recorded
        (fun _ _ => rfl) rfl (fun event' state present => ?_) (fun _ _ _ _ known => known)
        (List.Subset.refl _) (fun _ _ _ blocked => .inr blocked)
      · have differs : other ≠ tid := by
          rintro rfl
          obtain ⟨key, recorded⟩ := recorded
          exact recorded (forgotten key)
        simpa [SimpleTServer.replied, others' other differs] using ready
      · refine Function.update_of_ne ?_ ..
        obtain ⟨state₀, old, source⟩ := reads.exists_source present
        rw [← show state₀.rid = state.rid from congrArg Prod.fst source]
        exact fresh event' state₀ old

end Mvtx.Server
