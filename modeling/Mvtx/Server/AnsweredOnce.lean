import Mvtx.Lib.Run
import Mvtx.Server.Faults
import Mvtx.Server.Registered

/-!
# Reads are answered once

A read that is blocked is registered under the end of the interval which it
has met, and it stays registered there when it has been answered.  It is run
again by whoever gives up an interval with this end later, and `ReadEvent::run`
exits then.  That takes a writer that has aborted while a read waited for it: the
read goes on, locks what the writer has left, and gives it up in the end.  As long
as no transaction aborts for which a read waits every read is answered once.
-/

namespace Mvtx.Server

open Lib Lock AVLTreeLockManager SimpleTServer

/-- A request that arrives at the server, with the address that its event gets. -/
structure Arrival where
  event : Nat
  unset : Bool
  request : Request

/-- The server, and how many requests it has taken up; they are numbered from one on. -/
structure Intake where
  server : SimpleTServer
  taken : Nat

namespace Intake

/-- A server that serves some nodes, before its first request. -/
def first (nodes : Finset Nat) : Intake where
  server := { SimpleTServer.initial with nodes := nodes }
  taken := 0

/-- A request is taken up, and its event is run. -/
def step (getNode : Nat → Nat) (intake : Intake) (arrival : Arrival) : Exec Intake :=
  match intake.server.handle getNode (intake.taken + 1) arrival.event arrival.unset
      arrival.request with
  | .ok server => .ok { server := server, taken := intake.taken + 1 }
  | .error fault => .error fault

end Intake

/-- Whether a transaction gives up a lock for which others may wait. -/
def GivesUp (tid : Nat) (vote : Bool) (lock : Interval) : Prop :=
  tid ∈ lock.tids ∧ (lock.status = .writeLock ∨
    lock.status = .readLock ∧ (vote = true ∨ lock.tids.erase tid = ∅))

instance (tid : Nat) (vote : Bool) (lock : Interval) : Decidable (GivesUp tid vote lock) :=
  inferInstanceAs (Decidable (_ ∧ (_ ∨ _ ∧ (_ ∨ _))))

/--
No read that has been answered is registered under the end of an interval that
a transaction gives up.
-/
def SimpleTServer.NoneAnswered (server : SimpleTServer) (tid : Nat) (vote : Bool) : Prop :=
  ∀ key ∈ lockedKeys server.lockManager tid, ∀ lock ∈ server.lockManager.timeline key,
    met (server.lockManager.record tid key) lock = true → GivesUp tid vote lock →
      ∀ event ∈ server.lockManager.eventsAt key lock.endTs,
        ∀ state ∈ server.readEvents event, state.phase ≠ 2

instance (server : SimpleTServer) (tid : Nat) (vote : Bool) :
    Decidable (server.NoneAnswered tid vote) :=
  inferInstanceAs (Decidable (∀ key ∈ lockedKeys server.lockManager tid,
    ∀ lock ∈ server.lockManager.timeline key,
      met (server.lockManager.record tid key) lock = true → GivesUp tid vote lock →
        ∀ event ∈ server.lockManager.eventsAt key lock.endTs,
          ∀ state ∈ server.readEvents event, state.phase ≠ 2))

/-- A request of a transaction, with 64-bit timestamps and a new address for its event. -/
def Genuine (intake : Intake) (arrival : Arrival) : Prop :=
  arrival.request.Wired ∧ intake.server.readEvents arrival.event = none

instance (intake : Intake) (arrival : Arrival) : Decidable (Genuine intake arrival) :=
  inferInstanceAs (Decidable (_ ∧ _))

/-- A `TP2C` runs no read that has been answered. -/
def SimpleTServer.WakesUnanswered (server : SimpleTServer) : Request → Prop
  | .p2c tid vote => server.NoneAnswered tid vote
  | .read _ _ _ | .write _ _ _ | .p1c _ _ _ _ _ => True

instance (server : SimpleTServer) (request : Request) :
    Decidable (server.WakesUnanswered request) :=
  match request with
  | .p2c tid vote => inferInstanceAs (Decidable (server.NoneAnswered tid vote))
  | .read _ _ _ | .write _ _ _ | .p1c _ _ _ _ _ => inferInstanceAs (Decidable True)

/-- A genuine request that aborts no transaction for which a read waits. -/
def LeavesWaiting (intake : Intake) (arrival : Arrival) : Prop :=
  Genuine intake arrival ∧ intake.server.AbortsUnawaited arrival.request

instance (intake : Intake) (arrival : Arrival) : Decidable (LeavesWaiting intake arrival) :=
  inferInstanceAs (Decidable (_ ∧ _))

/-! ## The events that are collected -/

theorem givesUp_iff {tid : Nat} {vote : Bool} {lock : Interval} :
    ((if vote then freezeVisit tid lock else unlockVisit tid lock).2 = true) ↔
      GivesUp tid vote lock := by
  unfold GivesUp
  cases vote with
  | true =>
      unfold freezeVisit
      cases status : lock.status <;> by_cases holds : tid ∈ lock.tids <;> simp [holds]
  | false =>
      unfold unlockVisit
      cases status : lock.status <;> by_cases holds : tid ∈ lock.tids <;> simp [holds]

variable {server server' : SimpleTServer} {event taken : Nat}

/-- What is collected has not been answered, if the condition is met. -/
theorem SimpleTServer.NoneAnswered.waits {tid : Nat} {vote : Bool}
    {manager' : AVLTreeLockManager} {events : Finset Nat}
    (none' : server.NoneAnswered tid vote) (sound : server.lockManager.Sound)
    (released : (if vote then server.lockManager.freeze tid else server.lockManager.unlock tid) =
      .ok (manager', events)) :
    ∀ event ∈ events, ∀ state, server.readEvents event = some state → state.phase ≠ 2 := by
  intro event member state present
  have collected : ∃ key, ∃ lock ∈ server.lockManager.timeline key,
      met (server.lockManager.record tid key) lock = true ∧ GivesUp tid vote lock ∧
        event ∈ server.lockManager.eventsAt key lock.endTs := by
    cases vote with
    | false =>
        have scans := (sound.release (lawfulVisit_unlockVisit tid) released).1
        obtain ⟨key, lock, inTimeline, isMet, visit, registered⟩ := (scans.collected event).1 member
        exact ⟨key, lock, inTimeline, isMet, givesUp_iff.1 visit, registered⟩
    | true =>
        have scans := (sound.release (lawfulVisit_freezeVisit tid) released).1
        obtain ⟨key, lock, inTimeline, isMet, visit, registered⟩ := (scans.collected event).1 member
        exact ⟨key, lock, inTimeline, isMet, givesUp_iff.1 visit, registered⟩
  obtain ⟨key, lock, inTimeline, isMet, gives, registered⟩ := collected
  cases recorded : server.lockManager.record tid key with
  | none => simp [recorded, met] at isMet
  | some range =>
      exact none' key (mem_lockedKeys recorded) lock inTimeline isMet gives event registered state
        present

/-- What is registered has been answered only where no lock is given up any more. -/
theorem Registered.wakesUnanswered (registered : Registered [] server) (request : Request) :
    server.WakesUnanswered request := by
  cases request with
  | read | write | p1c => trivial
  | p2c tid vote =>
      intro key _ lock member _ gives event here state present answered
      obtain ⟨state', present', -, lock', member', ends, -, status⟩ :=
        registered.waits key lock.endTs event here
      obtain rfl := Option.some.inj (Eq.trans (Eq.symm present) present')
      rcases status with ⟨waits, -⟩ | ⟨frozen, -⟩
      · exact absurd (answered.symm.trans waits) (by decide)
      · have timeline := registered.sound.lockManager.trees.isTimeline key
        have covers : lock.Covers lock.endTs := ⟨(timeline.ordered member).1, le_rfl⟩
        have covers' : lock'.Covers lock.endTs :=
          ⟨ends ▸ (timeline.ordered member').1, ends.symm.le⟩
        obtain rfl := timeline.cover_unique member' member covers' covers
        rcases gives.2 with status | ⟨status, -⟩ <;> simp [frozen] at status

/-! ## The invariant -/

/-- Every read is in phase 0 and has not been answered, or in phase 2 and has been answered. -/
structure Tallied (server : SimpleTServer) (taken : Nat) : Prop where
  sound : server.Sound
  distinct : ∀ event event' state state', server.readEvents event = some state →
    server.readEvents event' = some state' → state.rid = state'.rid → event = event'
  numbered : ∀ event state, server.readEvents event = some state → state.rid ≤ taken
  sent : ∀ rid, server.replies rid ≠ none → rid ≤ taken
  reads : ∀ event state, server.readEvents event = some state →
    state.phase = 0 ∧ server.replies state.rid = none ∨
      state.phase = 2 ∧ ∃ value, server.replies state.rid = some (.read value true)

namespace Tallied

theorem first (nodes : Finset Nat) : Tallied (Intake.first nodes).server 0 where
  sound :=
    { lockManager := .empty
      reads := by simp [Intake.first, SimpleTServer.initial] }
  distinct := by simp [Intake.first, SimpleTServer.initial]
  numbered := by simp [Intake.first, SimpleTServer.initial]
  sent := by simp [Intake.first, SimpleTServer.initial]
  reads := by simp [Intake.first, SimpleTServer.initial]

/-- The number of the next request is new. -/
theorem fresh (tallied : Tallied server taken) : server.replies (taken + 1) = none := by
  by_contra sent
  exact Nat.not_succ_le_self _ (tallied.sent _ sent)

/-- What does not touch the read events and their replies. -/
theorem frame (tallied : Tallied server taken) (sound : server'.Sound)
    (readEvents : server'.readEvents = server.readEvents)
    (replies : ∀ rid ≤ taken, server'.replies rid = server.replies rid) {taken' : Nat}
    (le : taken ≤ taken') (sent : ∀ rid, server'.replies rid ≠ none → rid ≤ taken') :
    Tallied server' taken' where
  sound := sound
  distinct := by
    rw [readEvents]
    exact tallied.distinct
  numbered := by
    rw [readEvents]
    exact fun event state present => (tallied.numbered event state present).trans le
  sent := sent
  reads := by
    intro event state present
    rw [readEvents] at present
    rw [replies _ (tallied.numbered event state present)]
    exact tallied.reads event state present

/-- The reply to a request that is no read. -/
theorem reply (tallied : Tallied server taken) (sound : server'.Sound)
    (readEvents : server'.readEvents = server.readEvents) {reply : Reply}
    (replies : server'.replies = Function.update server.replies (taken + 1) (some reply)) :
    Tallied server' (taken + 1) := by
  refine tallied.frame sound readEvents (fun rid le => ?_) (Nat.le_succ _) (fun rid sent => ?_)
  · rw [replies, Function.update_of_ne (by omega)]
  · by_cases same : rid = taken + 1
    · exact same.le
    · rw [replies, Function.update_of_ne same] at sent
      exact (tallied.sent rid sent).trans (Nat.le_succ _)

/-- A read that is run has not been answered, and it leaves the other reads alone. -/
theorem runRead (tallied : Tallied server taken) (ran : server.runRead event = .ok server') :
    Tallied server' taken ∧ ∀ other, other ≠ event →
      server'.readEvents other = server.readEvents other := by
  obtain ⟨state, last, present, early, source, events, effect⟩ := runRead_effect ran
  have rid : last.rid = state.rid := congrArg Prod.fst source
  have others : ∀ other, other ≠ event → server'.readEvents other = server.readEvents other :=
    fun other differs => by rw [events, Function.update_of_ne differs]
  have sources : ∀ other state', server'.readEvents other = some state' →
      other = event ∧ state' = last ∨ other ≠ event ∧ server.readEvents other = some state' := by
    intro other state' present'
    by_cases same : other = event
    · subst same
      rw [events, Function.update_self] at present'
      exact .inl ⟨rfl, (Option.some.inj present').symm⟩
    · exact .inr ⟨same, by rwa [others other same] at present'⟩
  refine ⟨?_, others⟩
  refine
    { sound := tallied.sound.runRead ran
      distinct := fun e e' s s' here here' same => ?_
      numbered := fun other state' here => ?_
      sent := fun number replied => ?_
      reads := fun other state' here => ?_ }
  · rcases sources e s here with ⟨rfl, rfl⟩ | ⟨-, old⟩ <;>
      rcases sources e' s' here' with ⟨rfl, rfl⟩ | ⟨-, old'⟩
    · rfl
    · exact tallied.distinct _ _ _ _ present old' (rid.symm.trans same)
    · exact tallied.distinct _ _ _ _ old present (same.trans rid)
    · exact tallied.distinct _ _ _ _ old old' same
  · rcases sources other state' here with ⟨rfl, rfl⟩ | ⟨-, old⟩
    · exact rid.le.trans (tallied.numbered _ _ present)
    · exact tallied.numbered _ _ old
  · rcases effect with ⟨-, -, replies⟩ | ⟨-, -, value, replies⟩
    · exact tallied.sent number (replies ▸ replied)
    · by_cases same : number = state.rid
      · exact same.le.trans (tallied.numbered _ _ present)
      · rw [replies, Function.update_of_ne same] at replied
        exact tallied.sent number replied
  · rcases sources other state' here with ⟨rfl, rfl⟩ | ⟨differs, old⟩
    · rcases effect with ⟨phase, before, replies⟩ | ⟨phase, -, value, replies⟩
      · have waits := (tallied.reads _ _ present).resolve_right fun answered =>
          absurd (before.symm.trans answered.1) (by decide)
        exact .inl ⟨phase, by rw [rid, replies, waits.2]⟩
      · exact .inr ⟨phase, value, by rw [rid, replies, Function.update_self]⟩
    · have apart : state'.rid ≠ state.rid := fun same =>
        differs (tallied.distinct _ _ _ _ old present same)
      have kept : server'.replies state'.rid = server.replies state'.rid := by
        rcases effect with ⟨-, -, replies⟩ | ⟨-, -, value, replies⟩
        · rw [replies]
        · rw [replies, Function.update_of_ne apart]
      rw [kept]
      exact tallied.reads _ _ old

theorem runEvents {events : List Nat} (tallied : Tallied server taken)
    (ran : SimpleTServer.runEvents events server = .ok server') :
    Tallied server' taken ∧ ∀ other, other ∉ events →
      server'.readEvents other = server.readEvents other := by
  induction events generalizing server with
  | nil =>
      obtain rfl := Except.ok.inj ran
      exact ⟨tallied, fun _ _ => rfl⟩
  | cons event events ih =>
      rw [SimpleTServer.runEvents] at ran
      obtain ⟨server₁, first, rest⟩ := exists_of_bind ran
      obtain ⟨tallied₁, others⟩ := tallied.runRead first
      obtain ⟨tallied', others'⟩ := ih tallied₁ rest
      refine ⟨tallied', fun other absent => ?_⟩
      rw [List.mem_cons, not_or] at absent
      exact (others' other absent.2).trans (others other absent.1)

end Tallied

/-! ## Handling a request -/

theorem sendReply_ne_exit {rid : Nat} (fresh : server.replies rid = none) (reply : Reply) :
    server.sendReply rid reply ≠ .error .exit := by
  simp [sendReply, fresh]

theorem answerRead_ne_exit {state : ReadEvent} (fresh : server.replies state.rid = none) :
    server.answerRead event state ≠ .error .exit := by
  unfold SimpleTServer.answerRead
  have fresh' : (server.setEvent event { state with phase := 2 }).replies state.rid = none := fresh
  refine bind_ne_error ?_ fun value _ => sendReply_ne_exit fresh' _
  cases SimpleTServer.get _ _ _ <;> simp [deref]

/-- A read that has not been answered does not exit. -/
theorem Tallied.runRead_ne_exit (tallied : Tallied server taken)
    (waits : ∀ state, server.readEvents event = some state → state.phase ≠ 2) :
    server.runRead event ≠ .error .exit := by
  unfold SimpleTServer.runRead
  cases present : server.readEvents event with
  | none => simp [deref, bind, Except.bind]
  | some state =>
      obtain ⟨phase, fresh⟩ := (tallied.reads event state present).resolve_right fun answered =>
        waits state present answered.1
      obtain ⟨manager', stopTs, stop, returned, -⟩ := tryBackwardLock_walks
        tallied.sound.lockManager.trees (uintPred_le (tallied.sound.reads event state present))
        state.key state.tid true event state.startTs
      simp only [deref, bind, Except.bind, phase, returned]
      split
      · exact answerRead_ne_exit fresh
      · simp [pure, Except.pure]

/-- Neither do reads that are run one after another. -/
theorem Tallied.runEvents_ne_exit {events : List Nat} (tallied : Tallied server taken)
    (once : events.Nodup)
    (waits : ∀ event ∈ events, ∀ state, server.readEvents event = some state → state.phase ≠ 2) :
    SimpleTServer.runEvents events server ≠ .error .exit := by
  induction events generalizing server with
  | nil => simp [SimpleTServer.runEvents]
  | cons event events ih =>
      obtain ⟨absent, once⟩ := List.nodup_cons.1 once
      rw [SimpleTServer.runEvents]
      refine bind_ne_error (tallied.runRead_ne_exit (waits event (by simp))) fun server₁ ran => ?_
      obtain ⟨tallied₁, others⟩ := tallied.runRead ran
      refine ih tallied₁ once fun other member state present => ?_
      rw [others other fun same => absent (same ▸ member)] at present
      exact waits other (by simp [member]) state present

variable {getNode : Nat → Nat} {unset : Bool} {request : Request}

/-- The event of a new read. -/
theorem Tallied.takenUp (tallied : Tallied server taken) (getNode : Nat → Nat)
    {tid startTs key : Nat}
    (bound : startTs ≤ uintMax) (new : server.readEvents event = none) :
    Tallied (server.takenUp getNode (taken + 1) event tid startTs key) (taken + 1) ∧
      ∀ other, other ≠ event → (server.takenUp getNode (taken + 1) event tid startTs
        key).readEvents other = server.readEvents other := by
  have others : ∀ other, other ≠ event → (server.takenUp getNode (taken + 1) event tid startTs
      key).readEvents other = server.readEvents other :=
    fun other differs => Function.update_of_ne differs ..
  have sources : ∀ other state', (server.takenUp getNode (taken + 1) event tid startTs
      key).readEvents other = some state' →
      other = event ∧ state' = ⟨taken + 1, tid, startTs, key, 0⟩ ∨
        other ≠ event ∧ server.readEvents other = some state' := by
    intro other state' present'
    by_cases same : other = event
    · subst same
      exact .inl ⟨rfl, by simpa [SimpleTServer.takenUp, setEvent] using present'.symm⟩
    · exact .inr ⟨same, (others other same).symm.trans present'⟩
  have known : SimpleTServer.Sound
      { server with tidToNodes := insertNode server.tidToNodes tid (getNode key) } :=
    ⟨tallied.sound.lockManager, tallied.sound.reads⟩
  refine ⟨?_, others⟩
  refine
    { sound := known.setEvent event _ bound
      distinct := fun e e' s s' here here' same => ?_
      numbered := fun other state' here => ?_
      sent := fun rid replied => (tallied.sent rid replied).trans (Nat.le_succ _)
      reads := fun other state' here => ?_ }
  · rcases sources e s here with ⟨rfl, rfl⟩ | ⟨-, old⟩ <;>
      rcases sources e' s' here' with ⟨rfl, rfl⟩ | ⟨-, old'⟩
    · rfl
    · have := tallied.numbered _ _ old'
      simp only at same
      omega
    · have := tallied.numbered _ _ old
      simp only at same
      omega
    · exact tallied.distinct _ _ _ _ old old' same
  · rcases sources other state' here with ⟨rfl, rfl⟩ | ⟨-, old⟩
    · exact Nat.le_refl _
    · exact (tallied.numbered _ _ old).trans (Nat.le_succ _)
  · rcases sources other state' here with ⟨rfl, rfl⟩ | ⟨-, old⟩
    · exact .inl ⟨rfl, tallied.fresh⟩
    · exact tallied.reads _ _ old

/-- What a request leaves alone: the reads that have been answered. -/
def KeepsAnswered (server server' : SimpleTServer) : Prop :=
  ∀ event state, server.readEvents event = some state → state.phase = 2 →
    server'.readEvents event = some state

theorem Tallied.handled (tallied : Tallied server taken) (wired : request.Wired)
    (new : server.readEvents event = none)
    (waits : server.WakesUnanswered request)
    (handled : Handled getNode server (taken + 1) event unset request server') :
    Tallied server' (taken + 1) ∧ KeepsAnswered server server' := by
  have sound := tallied.sound.handled wired handled
  cases handled with
  | @read tid startTs key server' served unlocked ran =>
      obtain ⟨tallied₁, others⟩ := tallied.takenUp getNode wired new
      obtain ⟨tallied', others'⟩ := tallied₁.runRead ran
      refine ⟨tallied', fun other state present _ => ?_⟩
      have differs : other ≠ event := by
        rintro rfl
        simp [new] at present
      rw [others' other differs, others other differs, present]
  | write | writeRefused | p1c | p1cRefused | p2cRefused =>
      exact ⟨tallied.reply sound rfl rfl, fun _ _ present _ => present⟩
  | @p2c tid vote nodes manager events server₁ known unlocked released ran fresh =>
      have untouched := NoneAnswered.waits waits tallied.sound.lockManager released
      have freed : SimpleTServer.Sound { server with
          tidToNodes := Function.update server.tidToNodes tid none
          lockManager := manager } :=
        ⟨sound_released tallied.sound.lockManager released, tallied.sound.reads⟩
      have before := tallied.frame freed rfl (fun _ _ => rfl) (Nat.le_refl _) tallied.sent
      obtain ⟨tallied₁, others⟩ := before.runEvents ran
      obtain ⟨store, pendWrites, rdyToCommit, same, -⟩ := finalize_eq server₁ tid vote
      rw [same] at sound ⊢
      refine ⟨tallied₁.reply sound rfl rfl, fun other state present answered => ?_⟩
      refine (others other fun member => ?_).trans present
      rw [mem_ascending] at member
      exact untouched other member state present answered

/-- A request whose condition is met does not exit. -/
theorem Tallied.handle_ne_exit (tallied : Tallied server taken) (wired : request.Wired)
    (new : server.readEvents event = none)
    (waits : server.WakesUnanswered request) :
    server.handle getNode (taken + 1) event unset request ≠ .error .exit := by
  intro exits
  have before : ∀ {tid : Nat} {vote : Bool} {manager : AVLTreeLockManager} {events : Finset Nat},
      (if vote then server.lockManager.freeze tid else server.lockManager.unlock tid) =
        .ok (manager, events) →
      Tallied
        { server with
          tidToNodes := Function.update server.tidToNodes tid none
          lockManager := manager } taken := by
    intro tid vote manager events released
    have freed : SimpleTServer.Sound
        { server with
          tidToNodes := Function.update server.tidToNodes tid none
          lockManager := manager } :=
      ⟨sound_released tallied.sound.lockManager released, tallied.sound.reads⟩
    exact tallied.frame freed rfl (fun _ _ => rfl) (Nat.le_refl _) tallied.sent
  cases faulted_of_handle exits with
  | replied sent => exact sent tallied.fresh
  | @read tid startTs key _ served ran =>
      refine (tallied.takenUp getNode wired new).1.runRead_ne_exit (fun state present => ?_) ran
      obtain rfl : _ = state := by
        simpa [SimpleTServer.takenUp, setEvent] using present
      simp
  | @p1c tid startTs commitTs readNodes writeNodes _ known locked =>
      obtain ⟨rfl, bound⟩ := wired
      obtain ⟨outcome, returned⟩ := exists_lockKeys tallied.sound.lockManager bound
      exact absurd (returned.symm.trans locked) (by simp)
  | @p2cRelease tid vote _ known released =>
      cases vote <;> exact release_ne_exit _ _ _ released
  | p2c known released ran =>
      have untouched := waits.waits tallied.sound.lockManager released
      refine (before released).runEvents_ne_exit (ascending_nodup _) (fun event member => ?_) ran
      exact untouched event (mem_ascending.1 member)
  | p2cReplied known released ran sent => exact sent ((before released).runEvents ran).1.fresh

/-! ## Runs of the server -/

variable {nodes : Finset Nat} {intake : Intake}

theorem tallied_of_reach
    (reached : Reach (Intake.step getNode) LeavesWaiting (.first nodes) intake) :
    Tallied intake.server intake.taken ∧ Registered [] intake.server := by
  induction reached with
  | refl => exact ⟨.first nodes, registered_first nodes⟩
  | @tail intake intake' arrival earlier permitted stepped ih =>
      obtain ⟨tallied, registered⟩ := ih
      obtain ⟨⟨wired, new⟩, spares⟩ := permitted
      unfold Intake.step at stepped
      split at stepped
      · next server' handled =>
          obtain rfl := Except.ok.inj stepped
          have cases := handled_of_handle handled
          exact ⟨(tallied.handled wired new (registered.wakesUnanswered _) cases).1,
            registered.handled wired new spares cases⟩
      · exact absurd stepped (by simp)

/--
As long as no transaction aborts for which a read waits, every read is in phase 0
and has no reply, or in phase 2 and has one.  Whatever arrives next, its handler
does not call `exit` and runs no read that has been answered.
-/
theorem answered_once_of_reach
    (reached : Reach (Intake.step getNode) LeavesWaiting (.first nodes) intake) :
    (∀ event state, intake.server.readEvents event = some state →
      state.phase = 0 ∧ intake.server.replies state.rid = none ∨
        state.phase = 2 ∧ ∃ value, intake.server.replies state.rid = some (.read value true)) ∧
      ∀ arrival, Genuine intake arrival →
        intake.step getNode arrival ≠ .error .exit ∧
          ∀ intake', intake.step getNode arrival = .ok intake' →
            KeepsAnswered intake.server intake'.server := by
  obtain ⟨tallied, registered⟩ := tallied_of_reach reached
  refine ⟨tallied.reads, fun arrival permitted => ?_⟩
  obtain ⟨wired, new⟩ := permitted
  have waits := registered.wakesUnanswered arrival.request
  have safe : intake.server.handle getNode (intake.taken + 1) arrival.event arrival.unset
      arrival.request ≠ .error .exit := tallied.handle_ne_exit wired new waits
  unfold Intake.step
  split
  · next server' handled =>
      refine ⟨by simp, fun intake' stepped => ?_⟩
      obtain rfl := Except.ok.inj stepped
      exact (tallied.handled wired new waits (handled_of_handle handled)).2
  · next fault failed =>
      rw [failed] at safe
      exact ⟨fun exits => safe (congrArg Except.error (Except.error.inj exits)), by simp⟩

/--
A read at 20 is blocked by a writer at 10, which has yet to end, and another
writer of the key aborts; the reader can commit, and an earlier read of it stays
answered.
-/
theorem answered_once_of_three :
    ∃ intake : Intake, intake.server.replies 1 = some (.read "0" true) ∧
      intake.server.replies 4 = none ∧
      intake.step (fun _ => 0) ⟨0, false, .p2c 2 true⟩ ≠ .error .exit := by
  obtain ⟨intake, reached, holds⟩ := exists_reach_of_admits LeavesWaiting
    [⟨4, false, .read 2 20 8⟩, ⟨0, false, .write 1 7 "a"⟩, ⟨0, false, .p1c 1 10 10 ∅ {0}⟩,
      ⟨5, false, .read 2 20 7⟩, ⟨0, false, .write 3 7 "b"⟩, ⟨0, false, .p1c 3 30 30 ∅ {0}⟩,
      ⟨0, false, .p2c 3 false⟩]
    (fun intake => intake.server.replies 1 = some (.read "0" true) ∧
      intake.server.replies 4 = none ∧ Genuine intake ⟨0, false, .p2c 2 true⟩)
    (show admits (Intake.step fun _ => 0) _ (.first {0}) _ = true by decide)
    (show ends (Intake.step fun _ => 0) _ (.first {0}) _ = true by decide)
  obtain ⟨replied, blocked, permitted⟩ := of_decide_eq_true holds
  exact ⟨intake, replied, blocked, ((answered_once_of_reach reached).2 _ permitted).1⟩

/-- A writer aborts, and the read that it has blocked is answered; its `commit` exits. -/
theorem exists_exit_of_aborted_writer :
    ∃ intake, Reach (Intake.step fun _ => 0) Genuine (.first {0}) intake ∧
      Genuine intake ⟨0, false, .p2c 2 true⟩ ∧
      intake.server.replies 3 = some (.read "0" true) ∧
      intake.step (fun _ => 0) ⟨0, false, .p2c 2 true⟩ = .error .exit := by
  obtain ⟨intake, reached, holds⟩ := exists_reach_of_admits Genuine
    [⟨0, false, .write 1 7 "a"⟩, ⟨0, false, .p1c 1 10 10 ∅ {0}⟩, ⟨5, false, .read 2 20 7⟩,
      ⟨0, false, .p2c 1 false⟩]
    (fun intake => decide (Genuine intake ⟨0, false, .p2c 2 true⟩ ∧
        intake.server.replies 3 = some (.read "0" true)) &&
      match intake.step (fun _ => 0) ⟨0, false, .p2c 2 true⟩ with
      | .error fault => fault = .exit
      | .ok _ => false)
    (show admits (Intake.step fun _ => 0) _ (.first {0}) _ = true by decide)
    (show ends (Intake.step fun _ => 0) _ (.first {0}) _ = true by decide)
  obtain ⟨known, exits⟩ := Bool.and_eq_true_iff.1 holds
  obtain ⟨genuine, replied⟩ := of_decide_eq_true known
  refine ⟨intake, reached, genuine, replied, ?_⟩
  split at exits
  · next fault failed => rw [failed, of_decide_eq_true exits]
  · exact absurd exits (by decide)

end Mvtx.Server
