import Mvtx.Lock.Alone
import Mvtx.Server.Wakeful

/-!
# What is left on the server

`Settled` is what remains true of the server when several transactions may have
the same ID.  Whatever is recorded in the lock manager is recorded for an ID
that still owes a `TP2C`, a read event has been answered once its phase says so,
and nothing lies at or beyond a bound on the start timestamps.
-/

namespace Mvtx.Server

open Lib Lock AVLTreeLockManager SimpleTServer

/-- Nothing is locked, frozen or waited for from a bound on. -/
structure Bounded (bound : Nat) (manager : AVLTreeLockManager) : Prop where
  held : Held (fun _ => True) manager
  below : ∀ key, ∀ lock ∈ manager.timeline key, lock.status ≠ .free → lock.endTs < bound
  marked : ∀ key ts, manager.eventsAt key ts ≠ ∅ →
    ts < bound ∧ ∃ lock ∈ manager.timeline key, lock.endTs = ts

/-- What the server keeps is kept for the transaction IDs that owe a `TP2C`. -/
structure Settled (bound : Nat) (owes : Nat → Prop) (server : SimpleTServer) : Prop where
  bounded : Bounded bound server.lockManager
  records : ∀ tid key, server.lockManager.record tid key ≠ none → owes tid
  distinct : ∀ event event' state state', server.readEvents event = some state →
    server.readEvents event' = some state' → state.rid = state'.rid → event = event'
  reads : ∀ event state, server.readEvents event = some state →
    1 ≤ state.startTs ∧ state.startTs < bound ∧
      (state.phase = 0 ∧ server.replies state.rid = none ∧ owes state.tid ∨ state.phase = 2)

namespace Bounded

variable {bound : Nat} {manager manager' : AVLTreeLockManager} {key tid low high : Nat}
  {isRead : Bool} {visit : Interval → Interval × Bool} {events : Finset Nat}

theorem empty (positive : 1 ≤ bound) : Bounded bound AVLTreeLockManager.empty where
  held := .empty
  below := by
    intro key lock member locked
    have member' : lock ∈ initialTimeline := member
    simp only [initialTimeline, List.mem_cons, List.not_mem_nil, or_false] at member'
    rcases member' with rfl | rfl
    · exact positive
    · exact absurd rfl locked
  marked := by simp [AVLTreeLockManager.empty, eventsAt]

theorem acquired (bounded : Bounded bound manager)
    (acquired : Acquired manager key tid isRead low high manager') (within : high < bound)
    (events : ∀ key ts, manager'.eventsAt key ts ≠ ∅ → manager.eventsAt key ts ≠ ∅ ∨
      ∃ lock ∈ manager.timeline key, lock.status ≠ .free ∧ lock.endTs = ts) :
    Bounded bound manager' where
  held := bounded.held.acquired acquired fun _ => trivial
  below := by
    intro other part member locked
    obtain ⟨lock, old, ⟨-, piece⟩ | ⟨-, rfl⟩⟩ := acquired.pieces other part member
    · cases piece with
      | same => exact bounded.below other part old locked
      | rest _ status _ _ ends =>
          exact ends.trans_lt (bounded.below other lock old (status ▸ locked))
      | locked _ _ _ _ ends => omega
    · exact bounded.below other part old locked
  marked := by
    intro other ts registered
    have before : ts < bound ∧ ∃ lock ∈ manager.timeline other, lock.endTs = ts := by
      rcases events other ts registered with old | ⟨lock, member, locked, rfl⟩
      · exact bounded.marked other ts old
      · exact ⟨bounded.below other lock member locked, lock, member, rfl⟩
    exact ⟨before.1, acquired.marked bounded.held.wellFormed before.2⟩

theorem sameView (bounded : Bounded bound manager) (same : SameView manager manager')
    (wellFormed : manager'.WellFormed) : Bounded bound manager' where
  held := bounded.held.sameView same wellFormed
  below := by
    intro key lock member
    rw [same.timeline] at member
    exact bounded.below key lock member
  marked := by
    intro key ts registered
    rw [same.eventsAt] at registered
    rw [same.timeline]
    exact bounded.marked key ts registered

theorem released (bounded : Bounded bound manager)
    (release : Released visit manager tid manager' events) (lets : LetsGo visit tid) :
    Bounded bound manager' where
  held := bounded.held.released release lets
  below := by
    intro key part member locked
    rw [release.timeline] at member
    obtain ⟨lock, old, rfl⟩ := List.mem_map.1 member
    rw [lets.lawful.released_endTs]
    refine bounded.below key lock old fun free => locked ?_
    have idle := lets.lawful.idle lock (by simp [free]) (by simp [free])
    rw [Lock.released, idle, ite_self, free]
  marked := by
    intro key ts registered
    rw [release.eventsAt] at registered
    obtain ⟨before, lock, member, rfl⟩ := bounded.marked key ts registered
    refine ⟨before, _, by rw [release.timeline]; exact List.mem_map_of_mem member, ?_⟩
    exact lets.lawful.released_endTs _ lock

end Bounded

variable {server server' : SimpleTServer} {bound event : Nat} {owes owes' : Nat → Prop}

theorem Settled.initial (positive : 1 ≤ bound) : Settled bound owes .initial where
  bounded := .empty positive
  records := by simp [SimpleTServer.initial, AVLTreeLockManager.empty, record]
  distinct := by simp [SimpleTServer.initial]
  reads := by simp [SimpleTServer.initial]

/-- What does not change the states of the read events. -/
theorem Settled.frame (settled : Settled bound owes server)
    (bounded : Bounded bound server'.lockManager)
    (records : ∀ tid key, server'.lockManager.record tid key ≠ none → owes' tid)
    (readEvents : server'.readEvents = server.readEvents)
    (replies : ∀ event state, server.readEvents event = some state →
      server'.replies state.rid = server.replies state.rid)
    (waiting : ∀ event state, server.readEvents event = some state →
      server.replies state.rid = none → owes state.tid → owes' state.tid) :
    Settled bound owes' server' where
  bounded := bounded
  records := records
  distinct := by
    rw [readEvents]
    exact settled.distinct
  reads := by
    intro event state present
    rw [readEvents] at present
    rw [replies event state present]
    obtain ⟨positive, below, stands⟩ := settled.reads event state present
    refine ⟨positive, below, stands.imp_left ?_⟩
    exact fun ⟨phase, fresh, owing⟩ => ⟨phase, fresh, waiting event state present fresh owing⟩

/-- A read event that is run. -/
theorem Settled.runRead (settled : Settled bound owes server) (small : bound ≤ uintMax)
    (ran : server.runRead event = .ok server') : Settled bound owes server' := by
  obtain ⟨state, present, cases⟩ := runRead_cases ran
  obtain ⟨bounded, records, distinct, reads⟩ := settled
  obtain ⟨positive, below, stands⟩ := reads event state present
  obtain ⟨phase, manager', res, low, returned, outcome⟩ := cases.resolve_right fun answered => by
    rcases stands with ⟨phase, -⟩ | phase <;> simp [answered.1] at phase
  obtain ⟨-, fresh, owing⟩ := stands.resolve_right (by simp [phase])
  obtain ⟨manager₁, stopTs, stop, returned₁, backward⟩ :=
    tryBackwardLock_eq bounded.held.wellFormed (show state.startTs - 1 < uintMax by omega)
      state.key state.tid true event state.startTs
  rw [uintPred_eq positive, returned₁] at returned
  obtain ⟨rfl, rfl, rfl⟩ : manager₁ = manager' ∧ (!stop.status.waits true) = res ∧
      stopTs + 1 = low := by
    simpa using returned
  have le := backward.le
  have bounded' : Bounded bound manager₁ := by
    refine bounded.acquired backward.acquired (by omega) fun key ts registered => ?_
    rw [backward.eventsAt] at registered
    split at registered
    · next here =>
        obtain ⟨rfl, rfl, waits⟩ := here
        refine .inr ⟨stop, backward.member, fun free => ?_, rfl⟩
        simp [free, LockStatus.waits] at waits
    · exact .inl registered
  have records' : ∀ tid key, manager₁.record tid key ≠ none → owes tid := by
    intro tid key recorded
    rw [backward.record] at recorded
    split at recorded
    · next same => exact same.1 ▸ owing
    · exact records tid key recorded
  -- The other events keep their states; this one has the state `last`.
  have finish : ∀ (last : ReadEvent), server'.lockManager = manager₁ →
      server'.readEvents = Function.update server.readEvents event (some last) →
      last.startTs = stopTs + 1 → last.rid = state.rid →
      (∀ rid, rid ≠ state.rid → server'.replies rid = server.replies rid) →
      (last.phase = 0 ∧ server'.replies last.rid = none ∧ owes last.tid ∨ last.phase = 2) →
      Settled bound owes server' := by
    intro last manager events startTs rid replies isLast
    have sources : ∀ other state', server'.readEvents other = some state' →
        other = event ∧ state' = last ∨ other ≠ event ∧ server.readEvents other = some state' := by
      intro other state' present'
      rw [events] at present'
      by_cases same : other = event
      · subst same
        exact .inl ⟨rfl, by simpa using present'.symm⟩
      · exact .inr ⟨same, by simpa [same] using present'⟩
    refine
      { bounded := by rwa [manager]
        records := by rwa [manager]
        distinct := fun e e' s s' here here' same => ?_
        reads := fun other state' present' => ?_ }
    · rcases sources e s here with ⟨rfl, rfl⟩ | ⟨differs, old⟩ <;>
        rcases sources e' s' here' with ⟨rfl, rfl⟩ | ⟨differs', old'⟩
      · rfl
      · exact distinct _ _ _ _ present old' (rid.symm.trans same)
      · exact distinct _ _ _ _ old present (same.trans rid)
      · exact distinct _ _ _ _ old old' same
    · rcases sources other state' present' with ⟨rfl, rfl⟩ | ⟨differs, old⟩
      · exact ⟨by omega, by omega, isLast⟩
      · have other_rid : state'.rid ≠ state.rid := fun same =>
          differs (distinct _ _ _ _ old present same)
        rw [replies _ other_rid]
        exact reads other state' old
  rcases outcome with ⟨-, rfl⟩ | ⟨-, answered⟩
  · exact finish { state with startTs := stopTs + 1 } rfl rfl rfl rfl (fun _ _ => rfl)
      (.inl ⟨phase, fresh, owing⟩)
  · obtain ⟨value, -, -, rfl⟩ := answerRead_eq answered
    exact finish { state with startTs := stopTs + 1, phase := 2 } rfl rfl rfl rfl
      (fun rid differs => Function.update_of_ne differs ..) (.inr rfl)

theorem Settled.runEvents {events : List Nat} (settled : Settled bound owes server)
    (small : bound ≤ uintMax)
    (ran : SimpleTServer.runEvents events server = .ok server') : Settled bound owes server' := by
  induction events generalizing server with
  | nil =>
      obtain rfl := Except.ok.inj ran
      exact settled
  | cons event events ih =>
      obtain ⟨server₁, first, rest⟩ := exists_of_bind ran
      exact ih (settled.runRead small first) rest

/-! ## Handling a request -/

theorem Bounded.tryLock {manager manager' : AVLTreeLockManager} {key tid ts : Nat} {res : Bool}
    (bounded : Bounded bound manager) (small : bound ≤ uintMax) (within : ts < bound)
    (returned : manager.tryLock key tid ts ts false = .ok (manager', res)) :
    Bounded bound manager' ∧ ∀ other key, manager'.record other key ≠ none →
      other = tid ∨ manager.record other key ≠ none := by
  obtain ⟨manager₁, lock, -, -, ⟨-, returned₁, wellFormed, same⟩ | ⟨pends, -, returned₁, locked⟩⟩ :=
    tryLock_point bounded.held.wellFormed key (show ts < uintMax by omega) tid false
  all_goals
    rw [returned] at returned₁
    obtain ⟨rfl, rfl⟩ := Prod.mk.inj (Except.ok.inj returned₁)
  · exact ⟨bounded.sameView same wellFormed, fun other key known =>
      .inr (same.record other key ▸ known)⟩
  · refine ⟨bounded.acquired locked.acquired within fun other ts registered => .inl ?_,
      fun other key known => ?_⟩
    · rwa [locked.eventsAt] at registered
    · rw [locked.record] at known
      split at known
      · next same => exact .inl same.1
      · exact .inr known

variable {getNode : Nat → Nat} {rid : Nat} {unset : Bool} {request : Request}

/-- What requests keep to, as far as `Settled` relies on it. -/
def Request.Within (bound : Nat) (owes : Nat → Prop) : Request → Prop
  | .read tid startTs _ => 1 ≤ startTs ∧ startTs < bound ∧ owes tid
  | .write _ _ _ => True
  | .p1c tid startTs commitTs _ _ => startTs = commitTs ∧ commitTs < bound ∧ owes tid
  | .p2c _ _ => True

/-- A read that has been taken up. -/
theorem Settled.takenUp {tid startTs key : Nat} (settled : Settled bound owes server)
    (records : ∀ tid key, server.lockManager.record tid key ≠ none → owes' tid)
    (new : server.readEvents event = none) (unsent : server.replies rid = none)
    (fresh : ∀ other state, server.readEvents other = some state → state.rid ≠ rid)
    (within : (Request.read tid startTs key).Within bound owes')
    (waiting : ∀ event state, server.readEvents event = some state →
      server.replies state.rid = none → owes state.tid → owes' state.tid) :
    Settled bound owes' (server.takenUp getNode rid event tid startTs key) := by
  have sources : ∀ other state,
      (server.takenUp getNode rid event tid startTs key).readEvents other = some state →
      other = event ∧
          state = { rid := rid, tid := tid, startTs := startTs, key := key, phase := 0 } ∨
        other ≠ event ∧ server.readEvents other = some state := by
    intro other state present
    by_cases same : other = event
    · subst same
      exact .inl ⟨rfl, by simpa [SimpleTServer.takenUp, setEvent] using present.symm⟩
    · exact .inr ⟨same, by simpa [SimpleTServer.takenUp, setEvent, same] using present⟩
  refine
    { bounded := settled.bounded
      records := records
      distinct := fun e e' s s' here here' same => ?_
      reads := fun other state present => ?_ }
  · rcases sources e s here with ⟨rfl, rfl⟩ | ⟨-, old⟩ <;>
      rcases sources e' s' here' with ⟨rfl, rfl⟩ | ⟨-, old'⟩
    · rfl
    · exact absurd same.symm (fresh _ _ old')
    · exact absurd same (fresh _ _ old)
    · exact settled.distinct _ _ _ _ old old' same
  · rcases sources other state present with ⟨rfl, rfl⟩ | ⟨differs, old⟩
    · exact ⟨within.1, within.2.1, .inl ⟨rfl, unsent, within.2.2⟩⟩
    · obtain ⟨positive, below, stands⟩ := settled.reads other state old
      refine ⟨positive, below, stands.imp_left ?_⟩
      rintro ⟨phase, unanswered, owing⟩
      exact ⟨phase, unanswered, waiting other state old unanswered owing⟩

/--
Whatever request is handled, all that is kept is kept for IDs that owe a
`TP2C`, where only a `TP2C` can end the owing of its ID.
-/
theorem Settled.handled (settled : Settled bound owes server) (small : bound ≤ uintMax)
    (handled : Handled getNode server rid event unset request server')
    (new : ∀ tid startTs key, request = .read tid startTs key → server.readEvents event = none)
    (unsent : server.replies rid = none)
    (fresh : ∀ other state, server.readEvents other = some state → state.rid ≠ rid)
    (within : request.Within bound owes')
    (weaker : ∀ tid, (∀ vote, request ≠ .p2c tid vote) ∨ server.tidToNodes tid = none →
      owes tid → owes' tid)
    (waiting : ∀ event state, server.readEvents event = some state →
      server.replies state.rid = none → owes state.tid → owes' state.tid) :
    Settled bound owes' server' := by
  have others : ∀ reply event state, server.readEvents event = some state →
      Function.update server.replies rid (some reply) state.rid = server.replies state.rid :=
    fun reply event state present => Function.update_of_ne (fresh event state present) ..
  cases handled with
  | @read tid startTs key server' served unlocked ran =>
      obtain ⟨positive, below, owing⟩ := within
      refine (settled.takenUp ?_ (new _ _ _ rfl) unsent fresh ?_ waiting).runRead small ran
      · exact fun tid key recorded => weaker tid (.inl (by simp)) (settled.records tid key recorded)
      · exact ⟨positive, below, owing⟩
  | write served unlocked _ =>
      exact settled.frame settled.bounded
        (fun tid key recorded => weaker tid (.inl (by simp)) (settled.records tid key recorded)) rfl
        (others _) waiting
  | writeRefused refused _ =>
      exact settled.frame settled.bounded
        (fun tid key recorded => weaker tid (.inl (by simp)) (settled.records tid key recorded)) rfl
        (others _) waiting
  | p1cRefused refused unlocked _ =>
      exact settled.frame settled.bounded
        (fun tid key recorded => weaker tid (.inl (by simp)) (settled.records tid key recorded)) rfl
        (others _) waiting
  | @p2cRefused tid vote refused unlocked _ =>
      refine settled.frame settled.bounded (fun other key recorded => ?_) rfl (others _) waiting
      refine weaker other ?_ (settled.records other key recorded)
      by_cases same : other = tid
      · exact .inr (same ▸ refused)
      · exact .inl fun vote' sent => same (Request.p2c.inj sent).1.symm
  | @p1c tid startTs commitTs readNodes writeNodes nodes manager res known unlocked locked _ =>
      obtain ⟨rfl, below, owing⟩ := within
      have locked' : Bounded bound manager ∧ ∀ other key, manager.record other key ≠ none →
          other = tid ∨ server.lockManager.record other key ≠ none := by
        refine lockKeys_induction (fun manager => Bounded bound manager ∧
          ∀ other key, manager.record other key ≠ none →
            other = tid ∨ server.lockManager.record other key ≠ none)
          ⟨settled.bounded, fun _ _ known => .inr known⟩ (fun _ _ _ _ before locked => ?_) locked
        obtain ⟨after, more⟩ := before.1.tryLock small below locked
        exact ⟨after, fun other key recorded => (more other key recorded).elim .inl (before.2 other key)⟩
      refine settled.frame locked'.1 (fun other key recorded => ?_) rfl (others _) waiting
      rcases locked'.2 other key recorded with rfl | old
      · exact owing
      · exact weaker other (.inl (by simp)) (settled.records other key old)
  | @p2c tid vote nodes manager events server₁ known unlocked released ran _ =>
      obtain ⟨visit, lets, release⟩ := exists_letsGo settled.bounded.held.wellFormed released
      have before : Settled bound owes'
          { server with
            tidToNodes := Function.update server.tidToNodes tid none
            lockManager := manager } := by
        refine settled.frame (settled.bounded.released release lets) (fun other key recorded => ?_)
          rfl (fun _ _ _ => rfl) waiting
        rw [release.record] at recorded
        split at recorded
        · exact absurd rfl recorded
        · next differs =>
            exact weaker other (.inl fun vote' sent => differs (Request.p2c.inj sent).1.symm)
              (settled.records other key recorded)
      have after := before.runEvents small ran
      have reads := readsOnly_runEvents ran
      obtain ⟨store, pendWrites, rdyToCommit, same, -⟩ := finalize_eq server₁ tid vote
      rw [same]
      refine after.frame after.bounded after.records rfl (fun event' state present => ?_)
        (fun _ _ _ _ owing => owing)
      refine Function.update_of_ne ?_ ..
      obtain ⟨state₀, old, source⟩ := reads.exists_source present
      rw [← show state₀.rid = state.rid from congrArg Prod.fst source]
      exact fresh event' state₀ old

end Mvtx.Server
