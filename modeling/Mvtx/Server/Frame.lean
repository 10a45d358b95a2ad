import Mvtx.Server.SimpleTServer

/-!
# What handlers leave alone

Running a read event changes the lock manager, that event and the reply to its
request.  The rest of the server only changes with the request that is being
handled.
-/

namespace Mvtx.Server

open Lib Lock SimpleTServer

/-- The part of a read event that never changes. -/
def ReadEvent.source (state : ReadEvent) : Nat × Nat × Nat :=
  (state.rid, state.tid, state.key)

/-- The difference that running read events makes, apart from the lock manager. -/
structure ReadsOnly (server server' : SimpleTServer) : Prop where
  nodes : server'.nodes = server.nodes
  store : server'.store = server.store
  pendWrites : server'.pendWrites = server.pendWrites
  rdyToCommit : server'.rdyToCommit = server.rdyToCommit
  tidToNodes : server'.tidToNodes = server.tidToNodes
  tidToWriteNodes : server'.tidToWriteNodes = server.tidToWriteNodes
  tidMutex : server'.tidMutex = server.tidMutex
  tidWriteMutex : server'.tidWriteMutex = server.tidWriteMutex
  source : ∀ event, (server'.readEvents event).map (·.source) =
    (server.readEvents event).map (·.source)
  replies : ∀ rid, server'.replies rid = server.replies rid ∨
    server.replies rid = none ∧
      ∃ event state value, server.readEvents event = some state ∧ state.rid = rid ∧
        server'.replies rid = some (.read value true)

namespace ReadsOnly

variable {server server' server'' : SimpleTServer}

theorem refl (server : SimpleTServer) : ReadsOnly server server where
  nodes := rfl
  store := rfl
  pendWrites := rfl
  rdyToCommit := rfl
  tidToNodes := rfl
  tidToWriteNodes := rfl
  tidMutex := rfl
  tidWriteMutex := rfl
  source := fun _ => rfl
  replies := fun _ => .inl rfl

theorem exists_source (reads : ReadsOnly server server') {event : Nat} {state' : ReadEvent}
    (present : server'.readEvents event = some state') :
    ∃ state, server.readEvents event = some state ∧ state.source = state'.source := by
  have source := reads.source event
  rw [present, Option.map_some] at source
  exact Option.map_eq_some_iff.1 source.symm

theorem made (reads : ReadsOnly server server') {event : Nat}
    (made : server.readEvents event ≠ none) : server'.readEvents event ≠ none := by
  intro missing
  have source := reads.source event
  rw [missing, Option.map_none, eq_comm, Option.map_eq_none_iff] at source
  exact made source

theorem trans (reads : ReadsOnly server server') (reads' : ReadsOnly server' server'') :
    ReadsOnly server server'' where
  nodes := reads'.nodes.trans reads.nodes
  store := reads'.store.trans reads.store
  pendWrites := reads'.pendWrites.trans reads.pendWrites
  rdyToCommit := reads'.rdyToCommit.trans reads.rdyToCommit
  tidToNodes := reads'.tidToNodes.trans reads.tidToNodes
  tidToWriteNodes := reads'.tidToWriteNodes.trans reads.tidToWriteNodes
  tidMutex := reads'.tidMutex.trans reads.tidMutex
  tidWriteMutex := reads'.tidWriteMutex.trans reads.tidWriteMutex
  source := fun event => (reads'.source event).trans (reads.source event)
  replies := by
    intro rid
    rcases reads'.replies rid with same' | ⟨none', event, state', value, present', rfl, answer⟩
    · rw [same']
      exact reads.replies rid
    · rcases reads.replies state'.rid with same | ⟨-, _, _, _, -, -, answered⟩
      · obtain ⟨state, present, source⟩ := reads.exists_source present'
        exact .inr ⟨same ▸ none', event, state, value, present, congrArg Prod.fst source,
          answer⟩
      · simp [answered] at none'

/-- The reply to a request is never changed. -/
theorem reply_kept (reads : ReadsOnly server server') {rid : Nat} {reply : Reply}
    (replied : server.replies rid = some reply) : server'.replies rid = some reply := by
  rcases reads.replies rid with same | ⟨none', -⟩
  · rw [same, replied]
  · simp [replied] at none'

end ReadsOnly

variable {server server' : SimpleTServer} {event : Nat}

theorem setEvent_source {state state' : ReadEvent}
    (present : server.readEvents event = some state) (source : state'.source = state.source)
    (other : Nat) :
    ((server.setEvent event state').readEvents other).map (·.source) =
      (server.readEvents other).map (·.source) := by
  by_cases same : other = event
  · subst same
    simp [setEvent, present, source]
  · simp [setEvent, same]

/-- Phase 1 of a read changes its event and the reply to it. -/
theorem answerRead_eq {state : ReadEvent} (answered : server.answerRead event state = .ok server') :
    ∃ value, server.get state.key (uintPred state.startTs) = some value ∧
      server.replies state.rid = none ∧
      server' =
        { server.setEvent event { state with phase := 2 } with
          replies := Function.update server.replies state.rid (some (.read value true)) } := by
  simp only [answerRead, bind, Except.bind] at answered
  split at answered
  · exact absurd answered (by simp)
  · next value found =>
      refine ⟨value, ?_, ?_⟩
      · cases known : server.get state.key (uintPred state.startTs) with
        | none =>
            have missing : (server.setEvent event { state with phase := 2 }).get state.key
                (uintPred state.startTs) = none := known
            simp [missing, deref] at found
        | some value' =>
            have present : (server.setEvent event { state with phase := 2 }).get state.key
                (uintPred state.startTs) = some value' := known
            rw [present] at found
            simpa [deref] using found
      · rw [sendReply] at answered
        split at answered
        · exact absurd answered (by simp)
        · next fresh =>
            exact ⟨fresh, (Except.ok.inj answered).symm⟩

theorem readsOnly_answerRead {state : ReadEvent}
    (answered : server.answerRead event state = .ok server')
    (present : ∃ old, server.readEvents event = some old ∧ old.source = state.source) :
    ReadsOnly server server' := by
  obtain ⟨old, present, source⟩ := present
  obtain ⟨value, -, fresh, rfl⟩ := answerRead_eq answered
  refine
    { ReadsOnly.refl server with
      source := setEvent_source present source.symm
      replies := fun rid => ?_ }
  by_cases same : rid = state.rid
  · subst same
    exact .inr ⟨fresh, event, old, value, present, congrArg Prod.fst source,
      Function.update_self ..⟩
  · exact .inl (Function.update_of_ne same ..)

/-- How a read event runs: it scans and waits, scans and is answered, or is answered. -/
theorem runRead_cases (ran : server.runRead event = .ok server') :
    ∃ state, server.readEvents event = some state ∧
      ((state.phase = 0 ∧ ∃ lockManager res startTs,
          server.lockManager.tryBackwardLock state.key state.tid (uintPred state.startTs) true
            event state.startTs = .ok (lockManager, res, startTs) ∧
          (res = false ∧
              server' = { server with lockManager := lockManager }.setEvent event
                { state with startTs := startTs } ∨
            res = true ∧
              { server with lockManager := lockManager }.answerRead event
                { state with startTs := startTs, phase := 1 } = .ok server')) ∨
        state.phase = 1 ∧ server.answerRead event state = .ok server') := by
  simp only [runRead, bind, Except.bind] at ran
  cases present : server.readEvents event with
  | none => simp [present, deref] at ran
  | some state =>
      simp only [present, deref] at ran
      refine ⟨state, rfl, ?_⟩
      split at ran
      · next phase =>
          refine .inl ⟨phase, ?_⟩
          split at ran
          · exact absurd ran (by simp)
          · next outcome returned =>
              obtain ⟨lockManager, res, startTs⟩ := outcome
              refine ⟨lockManager, res, startTs, returned, ?_⟩
              cases res with
              | false =>
                  left
                  simp only [Bool.false_eq_true, if_false, pure, Except.pure,
                    Except.ok.injEq] at ran
                  simp [← ran]
              | true => exact .inr ⟨rfl, by simpa using ran⟩
      · next phase => exact .inr ⟨phase, ran⟩
      · exact absurd ran (by simp)

/-- What a read that is run makes of its event and of the replies. -/
theorem runRead_effect (ran : server.runRead event = .ok server') :
    ∃ state last, server.readEvents event = some state ∧ state.phase ≤ 1 ∧
      last.source = state.source ∧
      server'.readEvents = Function.update server.readEvents event (some last) ∧
      (last.phase = 0 ∧ state.phase = 0 ∧ server'.replies = server.replies ∨
        last.phase = 2 ∧ server.replies state.rid = none ∧ ∃ value,
          server'.replies = Function.update server.replies state.rid (some (.read value true))) := by
  obtain ⟨state, present, ⟨phase, lockManager, res, startTs, -, ⟨-, rfl⟩ | ⟨-, answered⟩⟩ |
    ⟨phase, answered⟩⟩ := runRead_cases ran
  · exact ⟨state, { state with startTs := startTs }, present, by omega, rfl, rfl,
      .inl ⟨phase, phase, rfl⟩⟩
  · obtain ⟨value, -, fresh, rfl⟩ := answerRead_eq answered
    exact ⟨state, { state with startTs := startTs, phase := 2 }, present, by omega, rfl, rfl,
      .inr ⟨rfl, fresh, value, rfl⟩⟩
  · obtain ⟨value, -, fresh, rfl⟩ := answerRead_eq answered
    exact ⟨state, { state with phase := 2 }, present, by omega, rfl, rfl,
      .inr ⟨rfl, fresh, value, rfl⟩⟩

theorem readsOnly_lockManager (server : SimpleTServer) (lockManager : AVLTreeLockManager) :
    ReadsOnly server { server with lockManager := lockManager } where
  nodes := rfl
  store := rfl
  pendWrites := rfl
  rdyToCommit := rfl
  tidToNodes := rfl
  tidToWriteNodes := rfl
  tidMutex := rfl
  tidWriteMutex := rfl
  source := fun _ => rfl
  replies := fun _ => .inl rfl

/-- Running a read event. -/
theorem readsOnly_runRead (ran : server.runRead event = .ok server') :
    ReadsOnly server server' := by
  obtain ⟨state, present, ⟨-, lockManager, res, startTs, -, ⟨-, rfl⟩ | ⟨-, answered⟩⟩ |
    ⟨-, answered⟩⟩ := runRead_cases ran
  · exact (readsOnly_lockManager server lockManager).trans
      { ReadsOnly.refl { server with lockManager := lockManager } with
        source := setEvent_source present rfl }
  · exact (readsOnly_lockManager server lockManager).trans
      (readsOnly_answerRead answered ⟨state, present, rfl⟩)
  · exact readsOnly_answerRead answered ⟨state, present, rfl⟩

theorem readsOnly_runEvents {events : List Nat}
    (ran : runEvents events server = .ok server') : ReadsOnly server server' := by
  induction events generalizing server with
  | nil =>
      obtain rfl := Except.ok.inj ran
      exact .refl server
  | cons event events ih =>
      simp only [runEvents, bind, Except.bind] at ran
      split at ran
      · exact absurd ran (by simp)
      · next server₁ first => exact (readsOnly_runRead first).trans (ih ran)

end Mvtx.Server
