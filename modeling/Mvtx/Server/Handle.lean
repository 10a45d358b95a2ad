import Mvtx.Server.Frame

/-!
# What handling a request does

`Handled` has one case for every way in which a request can be handled, and
says all there is to say about it.  The invariants of the server are proved
from its cases.
-/

namespace Mvtx.Server

open Lib Lock SimpleTServer

/-- Whether `getEvent` turns a request down. -/
def SimpleTServer.Refuses (getNode : Nat → Nat) (server : SimpleTServer) : Request → Prop
  | .read _ _ key | .write _ key _ => getNode key ∉ server.nodes
  | .p1c tid _ _ _ _ => server.tidToWriteNodes tid = none
  | .p2c tid _ => server.tidToNodes tid = none

/-- Send the reply to a request that has none. -/
def SimpleTServer.replied (server : SimpleTServer) (rid : Nat) (reply : Reply) :
    SimpleTServer :=
  { server with replies := Function.update server.replies rid (some reply) }

/-- A server that has taken up a read. -/
def SimpleTServer.takenUp (getNode : Nat → Nat) (server : SimpleTServer)
    (rid event tid startTs key : Nat) : SimpleTServer :=
  { server with tidToNodes := insertNode server.tidToNodes tid (getNode key) }.setEvent event
    { rid := rid, tid := tid, startTs := startTs, key := key, phase := 0 }

/-- The ways in which a request is handled. -/
inductive Handled (getNode : Nat → Nat) (server : SimpleTServer) (rid event : Nat)
    (unset : Bool) : Request → SimpleTServer → Prop where
  | read
      {tid startTs key : Nat}
      {server' : SimpleTServer}
      (served : getNode key ∈ server.nodes)
      (unlocked : server.tidMutex = false)
      (ran : (server.takenUp getNode rid event tid startTs key).runRead event = .ok server') :
      Handled getNode server rid event unset (.read tid startTs key) server'
  | write
      {tid key : Nat}
      {value : String}
      (served : getNode key ∈ server.nodes)
      (unlocked : server.tidMutex = false ∧ server.tidWriteMutex = false)
      (fresh : server.replies rid = none) :
      Handled getNode server rid event unset (.write tid key value)
        (({ server with
          tidToNodes := insertNode server.tidToNodes tid (getNode key)
          tidToWriteNodes := insertNode server.tidToWriteNodes tid (getNode key) }.add tid key
            value).replied rid (.write true))
  | writeRefused
      {tid key : Nat}
      {value : String}
      (refused : getNode key ∉ server.nodes)
      (fresh : server.replies rid = none) :
      Handled getNode server rid event unset (.write tid key value)
        (server.replied rid (.write false))
  | p1c
      {tid startTs commitTs : Nat}
      {readNodes writeNodes nodes : Finset Nat}
      {lockManager : AVLTreeLockManager}
      {res : Bool}
      (known : server.tidToWriteNodes tid = some nodes)
      (unlocked : server.tidWriteMutex = false)
      (locked : lockKeys tid startTs commitTs (server.getKeys tid) server.lockManager =
        .ok (lockManager, res))
      (fresh : server.replies rid = none) :
      Handled getNode server rid event unset
        (.p1c tid startTs commitTs readNodes writeNodes)
        (({ server with
          tidToWriteNodes := Function.update server.tidToWriteNodes tid none
          lockManager := lockManager }.prepare tid commitTs).replied rid
            (.p1c (nodes ∪ readNodes ∪ writeNodes) res))
  | p1cRefused
      {tid startTs commitTs : Nat}
      {readNodes writeNodes : Finset Nat}
      (refused : server.tidToWriteNodes tid = none)
      (unlocked : server.tidWriteMutex = false)
      (fresh : server.replies rid = none) :
      Handled getNode server rid event unset
        (.p1c tid startTs commitTs readNodes writeNodes)
        ({ server with tidWriteMutex := true }.replied rid (.p1c ∅ unset))
  | p2c
      {tid : Nat}
      {vote : Bool}
      {nodes : Finset Nat}
      {lockManager : AVLTreeLockManager}
      {events : Finset Nat}
      {server' : SimpleTServer}
      (known : server.tidToNodes tid = some nodes)
      (unlocked : server.tidMutex = false)
      (released : (if vote then server.lockManager.freeze tid
        else server.lockManager.unlock tid) = .ok (lockManager, events))
      (ran : runEvents (ascending events)
        { server with
          tidToNodes := Function.update server.tidToNodes tid none
          lockManager := lockManager } = .ok server')
      (fresh : server'.replies rid = none) :
      Handled getNode server rid event unset (.p2c tid vote)
        ((server'.finalize tid vote).replied rid (.p2c nodes))
  | p2cRefused
      {tid : Nat}
      {vote : Bool}
      (refused : server.tidToNodes tid = none)
      (unlocked : server.tidMutex = false)
      (fresh : server.replies rid = none) :
      Handled getNode server rid event unset (.p2c tid vote)
        ({ server with tidMutex := true }.replied rid (.p2c ∅))

variable {getNode : Nat → Nat} {server server' : SimpleTServer} {rid event : Nat}
  {unset : Bool} {request : Request}

theorem exists_of_bind {α β ε : Type} {first : Except ε α} {next : α → Except ε β}
    {result : β} (ran : first >>= next = .ok result) :
    ∃ outcome, first = .ok outcome ∧ next outcome = .ok result := by
  cases first with
  | error fault => exact absurd ran (by simp [bind, Except.bind])
  | ok outcome => exact ⟨outcome, rfl, ran⟩

theorem sendReply_eq_ok {reply : Reply} (sent : server.sendReply rid reply = .ok server') :
    server.replies rid = none ∧ server' = server.replied rid reply := by
  rw [sendReply] at sent
  split at sent
  · exact absurd sent (by simp)
  · next fresh => exact ⟨fresh, (Except.ok.inj sent).symm⟩

theorem lockMutex_eq_ok {held : Bool} {result : Unit} (locked : lockMutex held = .ok result) :
    held = false := by
  cases held with
  | false => rfl
  | true => simp [lockMutex] at locked

/-- `finalize` changes the store and the entries of its transaction. -/
theorem finalize_eq (server : SimpleTServer) (tid : Nat) (success : Bool) :
    ∃ store pendWrites rdyToCommit,
      server.finalize tid success =
        { server with
          store := store
          pendWrites := pendWrites
          rdyToCommit := rdyToCommit } ∧
      (∀ other, other ≠ tid → pendWrites other = server.pendWrites other) ∧
      (∀ other, other ≠ tid → rdyToCommit other = server.rdyToCommit other) ∧
      rdyToCommit tid = none ∧
      pendWrites tid = if server.rdyToCommit tid = none then server.pendWrites tid else none := by
  have setAll_eq : ∀ writes ts server, ∃ store,
      SimpleTServer.setAll ts writes server = { server with store := store } := by
    intro writes ts
    induction writes with
    | nil => exact fun server => ⟨server.store, rfl⟩
    | cons write writes ih =>
        intro server
        obtain ⟨store, same⟩ := ih (server.set write.1 ts write.2)
        exact ⟨store, same⟩
  have updated : ∀ {α : Type} (map : Nat → Option α) other, other ≠ tid →
      Function.update map tid none other = map other :=
    fun map other differs => Function.update_of_ne differs ..
  unfold finalize
  split
  · next unprepared =>
      exact ⟨_, _, _, rfl, fun _ _ => rfl, fun _ _ => rfl, unprepared, by simp [unprepared]⟩
  · next ts prepared =>
      split
      · next none' =>
          exact ⟨_, _, _, rfl, fun _ _ => rfl, updated _, by simp, by simp [none', prepared]⟩
      · next writes _ =>
          cases success with
          | false => exact ⟨_, _, _, rfl, updated _, updated _, by simp, by simp [prepared]⟩
          | true =>
              obtain ⟨store, same⟩ := setAll_eq writes ts server
              simp only [if_true, same]
              exact ⟨_, _, _, rfl, updated _, updated _, by simp, by simp [prepared]⟩

/-- The vote only says which function of the lock manager runs. -/
theorem handled_p2c {tid : Nat} {vote : Bool} {nodes : Finset Nat}
    (known : server.tidToNodes tid = some nodes) (unlocked : server.tidMutex = false)
    (ran :
      ((if vote then server.lockManager.freeze tid else server.lockManager.unlock tid) >>=
        fun (lockManager, events) =>
          runEvents (ascending events)
            { server with
              tidToNodes := Function.update server.tidToNodes tid none
              lockManager := lockManager } >>= fun server =>
          (server.finalize tid vote).sendReply rid (.p2c nodes)) = .ok server') :
    Handled getNode server rid event unset (.p2c tid vote) server' := by
  obtain ⟨⟨lockManager, events⟩, released, ran⟩ := exists_of_bind ran
  obtain ⟨server₁, run, sent⟩ := exists_of_bind ran
  obtain ⟨store, pendWrites, rdyToCommit, same, -⟩ := finalize_eq server₁ tid vote
  obtain ⟨fresh, rfl⟩ := sendReply_eq_ok sent
  rw [same] at fresh
  exact .p2c known unlocked released run fresh

/-- A request that is handled without a fault is handled in one of these ways. -/
theorem handled_of_handle
    (handled : server.handle getNode rid event unset request = .ok server') :
    Handled getNode server rid event unset request server' := by
  simp only [handle, bind, Except.bind] at handled
  split at handled
  · exact absurd handled (by simp)
  · next outcome taken =>
      obtain ⟨server₁, made⟩ := outcome
      cases request with
      | read tid startTs key =>
          simp only [getEvent] at taken
          split at taken
          · next served =>
              simp only [bind, Except.bind] at taken
              split at taken
              · exact absurd taken (by simp)
              · next locked =>
                  obtain ⟨rfl, rfl⟩ := by simpa [pure, Except.pure] using taken
                  exact .read served (lockMutex_eq_ok locked) handled
          · exact absurd taken (by simp)
      | write tid key value =>
          simp only [getEvent] at taken
          split at taken
          · next served =>
              simp only [bind, Except.bind] at taken
              split at taken
              · exact absurd taken (by simp)
              · next locked =>
                  split at taken
                  · exact absurd taken (by simp)
                  · next locked' =>
                      obtain ⟨rfl, rfl⟩ := by simpa [pure, Except.pure] using taken
                      obtain ⟨fresh, rfl⟩ := sendReply_eq_ok handled
                      exact .write served ⟨lockMutex_eq_ok locked, lockMutex_eq_ok locked'⟩ fresh
          · next refused =>
              simp only [bind, Except.bind] at taken
              split at taken
              · exact absurd taken (by simp)
              · next server₂ sent =>
                  obtain ⟨rfl, rfl⟩ := by simpa [pure, Except.pure] using taken
                  obtain ⟨fresh, rfl⟩ := sendReply_eq_ok sent
                  obtain rfl := by simpa [pure, Except.pure] using handled
                  exact .writeRefused refused fresh
      | p1c tid startTs commitTs readNodes writeNodes =>
          simp only [getEvent, bind, Except.bind] at taken
          split at taken
          · exact absurd taken (by simp)
          · next locked =>
              have unlocked := lockMutex_eq_ok locked
              split at taken
              · next refused =>
                  split at taken
                  · exact absurd taken (by simp)
                  · next server₂ sent =>
                      obtain ⟨rfl, rfl⟩ := by simpa [pure, Except.pure] using taken
                      obtain ⟨fresh, rfl⟩ := sendReply_eq_ok sent
                      obtain rfl := by simpa [pure, Except.pure] using handled
                      exact .p1cRefused refused unlocked fresh
              · next nodes known =>
                  obtain ⟨rfl, rfl⟩ := by simpa [pure, Except.pure] using taken
                  simp only [SimpleTServer.run, runP1C, bind, Except.bind] at handled
                  split at handled
                  · exact absurd handled (by simp)
                  · next outcome keysLocked =>
                      obtain ⟨lockManager, res⟩ := outcome
                      obtain ⟨fresh, rfl⟩ := sendReply_eq_ok handled
                      exact .p1c known unlocked keysLocked fresh
      | p2c tid vote =>
          simp only [getEvent, bind, Except.bind] at taken
          split at taken
          · exact absurd taken (by simp)
          · next locked =>
              have unlocked := lockMutex_eq_ok locked
              split at taken
              · next refused =>
                  split at taken
                  · exact absurd taken (by simp)
                  · next server₂ sent =>
                      obtain ⟨rfl, rfl⟩ := by simpa [pure, Except.pure] using taken
                      obtain ⟨fresh, rfl⟩ := sendReply_eq_ok sent
                      obtain rfl := by simpa [pure, Except.pure] using handled
                      exact .p2cRefused refused unlocked fresh
              · next nodes known =>
                  obtain ⟨rfl, rfl⟩ := Prod.mk.inj (Except.ok.inj taken)
                  refine handled_p2c known unlocked ?_
                  cases vote with
                  | false => simpa [SimpleTServer.run, runP2C] using handled
                  | true => simpa [SimpleTServer.run, runP2C] using handled

/-- A request that is not turned down gets its event. -/
theorem getEvent_accepts (unlocked : server.tidMutex = false)
    (unlockedWrite : server.tidWriteMutex = false)
    (accepted : ¬ server.Refuses getNode request) :
    ∃ server' made, server.getEvent getNode rid event unset request =
      .ok (server', some made) := by
  cases request with
  | read tid startTs key =>
      have served : getNode key ∈ server.nodes := not_not.1 accepted
      simp [getEvent, served, lockMutex, unlocked, bind, Except.bind, pure, Except.pure]
  | write tid key value =>
      have served : getNode key ∈ server.nodes := not_not.1 accepted
      simp [getEvent, served, lockMutex, unlocked, unlockedWrite, bind, Except.bind, pure,
        Except.pure]
  | p1c tid =>
      obtain ⟨nodes, known⟩ := Option.ne_none_iff_exists'.1 accepted
      simp [getEvent, lockMutex, unlockedWrite, known, bind, Except.bind, pure, Except.pure]
  | p2c tid =>
      obtain ⟨nodes, known⟩ := Option.ne_none_iff_exists'.1 accepted
      simp [getEvent, lockMutex, unlocked, known, bind, Except.bind, pure, Except.pure]

/-! ## The mutexes -/

/-- A `TP2C` that is turned down leaves the mutex locked, and no other is handled then. -/
theorem tidMutex_of_handled (handled : Handled getNode server rid event unset request server')
    (held : server'.tidMutex = true) :
    (∃ tid vote, request = .p2c tid vote ∧ server.tidToNodes tid = none) ∨
      server.tidMutex = true ∧ ∀ tid vote, request ≠ .p2c tid vote := by
  cases handled with
  | read served unlocked ran =>
      have reads := readsOnly_runRead ran
      rw [reads.tidMutex] at held
      exact .inr ⟨held, by simp⟩
  | p2c known unlocked released ran fresh =>
      next server₁ =>
      obtain ⟨store, pendWrites, rdyToCommit, same, -⟩ := finalize_eq server₁ _ _
      rw [same] at held
      simp only [SimpleTServer.replied, (readsOnly_runEvents ran).tidMutex, unlocked] at held
      exact absurd held (by simp)
  | p2cRefused refused => exact .inl ⟨_, _, rfl, refused⟩
  | write | writeRefused | p1c | p1cRefused => exact .inr ⟨held, by simp⟩

/-- A `TP1C` that is turned down leaves the mutex locked, and no other is handled then. -/
theorem tidWriteMutex_of_handled
    (handled : Handled getNode server rid event unset request server')
    (held : server'.tidWriteMutex = true) :
    (∃ tid startTs commitTs readNodes writeNodes,
        request = .p1c tid startTs commitTs readNodes writeNodes ∧
          server.tidToWriteNodes tid = none) ∨
      server.tidWriteMutex = true ∧ ∀ tid startTs commitTs readNodes writeNodes,
        request ≠ .p1c tid startTs commitTs readNodes writeNodes := by
  cases handled with
  | read served unlocked ran =>
      have reads := readsOnly_runRead ran
      rw [reads.tidWriteMutex] at held
      exact .inr ⟨held, by simp⟩
  | p1c known unlocked => exact absurd (unlocked.symm.trans held) (by simp)
  | p2c known unlocked released ran fresh =>
      next server₁ =>
      obtain ⟨store, pendWrites, rdyToCommit, same, -⟩ := finalize_eq server₁ _ _
      rw [same] at held
      simp only [SimpleTServer.replied, (readsOnly_runEvents ran).tidWriteMutex] at held
      exact .inr ⟨held, by simp⟩
  | p1cRefused refused => exact .inl ⟨_, _, _, _, _, rfl, refused⟩
  | write | writeRefused | p2cRefused => exact .inr ⟨held, by simp⟩

/-! ## What a request leaves alone -/

/--
What handling a request of some transaction leaves alone: the entries of the
other transactions, the replies that have been sent, and the sources of the
read events.
-/
structure Touches (server server' : SimpleTServer) (rid tid : Nat) : Prop where
  nodes : server'.nodes = server.nodes
  known : ∀ other, other ≠ tid → server'.tidToNodes other = server.tidToNodes other
  knownWrite : ∀ other, other ≠ tid →
    server'.tidToWriteNodes other = server.tidToWriteNodes other
  pendWrites : ∀ other, other ≠ tid → server'.pendWrites other = server.pendWrites other
  rdyToCommit : ∀ other, other ≠ tid → server'.rdyToCommit other = server.rdyToCommit other
  kept : ∀ other reply, server.replies other = some reply → server'.replies other = some reply
  replied : ∀ other, server'.replies other ≠ none → server.replies other ≠ none ∨ other = rid ∨
    ∃ event state, server.readEvents event = some state ∧ state.rid = other
  events : ∀ event state', server'.readEvents event = some state' →
    state'.rid = rid ∨ ∃ state, server.readEvents event = some state ∧
      state.source = state'.source

namespace Touches

variable {tid : Nat} {server'' : SimpleTServer}

theorem refl (server : SimpleTServer) (rid tid : Nat) : Touches server server rid tid where
  nodes := rfl
  known := fun _ _ => rfl
  knownWrite := fun _ _ => rfl
  pendWrites := fun _ _ => rfl
  rdyToCommit := fun _ _ => rfl
  kept := fun _ _ sent => sent
  replied := fun _ sent => .inl sent
  events := fun _ state present => .inr ⟨state, present, rfl⟩

/-- Running read events touches nothing else. -/
theorem reads (touches : Touches server server' rid tid) (reads : ReadsOnly server' server'') :
    Touches server server'' rid tid where
  nodes := reads.nodes.trans touches.nodes
  known := fun other differs => by rw [reads.tidToNodes, touches.known other differs]
  knownWrite := fun other differs => by
    rw [reads.tidToWriteNodes, touches.knownWrite other differs]
  pendWrites := fun other differs => by rw [reads.pendWrites, touches.pendWrites other differs]
  rdyToCommit := fun other differs => by
    rw [reads.rdyToCommit, touches.rdyToCommit other differs]
  kept := fun other reply sent => reads.reply_kept (touches.kept other reply sent)
  replied := by
    intro other sent
    rcases reads.replies other with same | ⟨-, event, state', value, present', rfl, -⟩
    · exact touches.replied other (same ▸ sent)
    · rcases touches.events event state' present' with rfl | ⟨state, present, source⟩
      · exact .inr (.inl rfl)
      · exact .inr (.inr ⟨event, state, present, congrArg Prod.fst source⟩)
  events := by
    intro event state'' present''
    obtain ⟨state', present', source'⟩ := reads.exists_source present''
    rcases touches.events event state' present' with rfl | ⟨state, present, source⟩
    · exact .inl (congrArg Prod.fst source').symm
    · exact .inr ⟨state, present, source.trans source'⟩

/-- So does the reply to the request. -/
theorem reply (touches : Touches server server' rid tid) (fresh : server'.replies rid = none)
    (reply : Reply) : Touches server (server'.replied rid reply) rid tid where
  nodes := touches.nodes
  known := touches.known
  knownWrite := touches.knownWrite
  pendWrites := touches.pendWrites
  rdyToCommit := touches.rdyToCommit
  kept := by
    intro other old sent
    have kept := touches.kept other old sent
    have differs : other ≠ rid := by
      rintro rfl
      simp [fresh] at kept
    simpa [SimpleTServer.replied, differs] using kept
  replied := by
    intro other sent
    by_cases same : other = rid
    · exact .inr (.inl same)
    · exact touches.replied other (by simpa [SimpleTServer.replied, same] using sent)
  events := touches.events

end Touches

/-- Every way of handling a request touches no more than that. -/
theorem Handled.touches (handled : Handled getNode server rid event unset request server') :
    Touches server server' rid request.tid := by
  have start := Touches.refl server rid request.tid
  cases handled with
  | @read tid startTs key server' served unlocked ran =>
      refine Touches.reads ?_ (readsOnly_runRead ran)
      refine
        { start with
          known := fun other differs => Function.update_of_ne differs ..
          events := ?_ }
      intro other state' present'
      by_cases same : other = event
      · subst same
        simp only [SimpleTServer.takenUp, setEvent, Function.update_self,
          Option.some.injEq] at present'
        exact .inl (by rw [← present'])
      · exact .inr ⟨state', by simpa [SimpleTServer.takenUp, setEvent, same] using present', rfl⟩
  | write served unlocked fresh =>
      refine Touches.reply ?_ ?_ _
      · exact
          { start with
            known := fun other differs => Function.update_of_ne differs ..
            knownWrite := fun other differs => Function.update_of_ne differs ..
            pendWrites := fun other differs => Function.update_of_ne differs .. }
      · exact fresh
  | writeRefused refused fresh => exact start.reply fresh _
  | p1c known unlocked locked fresh =>
      refine Touches.reply ?_ ?_ _
      · exact
          { start with
            knownWrite := fun other differs => Function.update_of_ne differs ..
            rdyToCommit := fun other differs => Function.update_of_ne differs .. }
      · exact fresh
  | p1cRefused refused unlocked fresh =>
      refine Touches.reply ?_ ?_ _
      · exact { start with }
      · exact fresh
  | p2cRefused refused unlocked fresh =>
      refine Touches.reply ?_ ?_ _
      · exact { start with }
      · exact fresh
  | @p2c tid vote nodes lockManager events server' known unlocked released ran fresh =>
      obtain ⟨store, pendWrites, rdyToCommit, same, pend, ready, -⟩ :=
        finalize_eq server' tid vote
      have before : Touches server server' rid tid := by
        refine Touches.reads ?_ (readsOnly_runEvents ran)
        exact
          { start with
            known := fun other differs => Function.update_of_ne differs .. }
      rw [same]
      refine Touches.reply ?_ ?_ _
      · exact
          { before with
            pendWrites := fun other differs =>
              (pend other differs).trans (before.pendWrites other differs)
            rdyToCommit := fun other differs =>
              (ready other differs).trans (before.rdyToCommit other differs) }
      · exact fresh

end Mvtx.Server
