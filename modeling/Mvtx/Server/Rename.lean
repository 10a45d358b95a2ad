import Mathlib.Logic.Equiv.Basic
import Mvtx.Server.Handle

/-!
# Other numbers for the requests

The server keeps the numbers of requests in its read events and in the map of
the replies, and compares them with nothing.  So a server in which the requests
have other numbers handles a request alike, and a number that the server has
not met can be exchanged for another such number.
-/

namespace Mvtx.Server

open Lib Lock SimpleTServer

/-- A read event whose request has another number. -/
def ReadEvent.rename (names : Equiv.Perm Nat) (read : ReadEvent) : ReadEvent :=
  { read with rid := names read.rid }

/-- An event whose request has another number. -/
def ServerEvent.rename (names : Equiv.Perm Nat) : ServerEvent → ServerEvent
  | .read event => .read event
  | .write rid tid key value => .write (names rid) tid key value
  | .p1c rid tid startTs commitTs readNodes writeNodes nodes =>
      .p1c (names rid) tid startTs commitTs readNodes writeNodes nodes
  | .p2c rid tid vote nodes => .p2c (names rid) tid vote nodes

/-- The server with other numbers for the requests. -/
def SimpleTServer.rename (names : Equiv.Perm Nat) (server : SimpleTServer) : SimpleTServer :=
  { server with
    readEvents := fun event => (server.readEvents event).map (ReadEvent.rename names)
    replies := fun rid => server.replies (names.symm rid) }

variable {getNode : Nat → Nat} {server : SimpleTServer} {rid event : Nat} {unset : Bool}
  {request : Request}

theorem map_bind {α β γ : Type} (first : Exec α) (next : α → Exec β) (change : β → γ) :
    (first >>= next).map change = first >>= fun outcome => (next outcome).map change := by
  cases first <;> rfl

@[simp]
theorem map_pure {α β : Type} (outcome : α) (change : α → β) :
    Except.map change (pure outcome : Exec α) = pure (change outcome) := rfl

section Rename

variable (names : Equiv.Perm Nat)

@[simp]
theorem replies_rename (server : SimpleTServer) (rid : Nat) :
    (server.rename names).replies (names rid) = server.replies rid := by
  simp [SimpleTServer.rename]

@[simp]
theorem readEvents_rename (server : SimpleTServer) (event : Nat) :
    (server.rename names).readEvents event =
      (server.readEvents event).map (ReadEvent.rename names) := rfl

@[simp]
theorem get_rename (server : SimpleTServer) : (server.rename names).get = server.get := rfl

theorem rename_replied (server : SimpleTServer) (rid : Nat) (reply : Reply) :
    (server.replied rid reply).rename names = (server.rename names).replied (names rid) reply := by
  have replies : ∀ other, Function.update server.replies rid (some reply) (names.symm other) =
      Function.update (fun rid => server.replies (names.symm rid)) (names rid) (some reply)
        other := by
    intro other
    by_cases same : other = names rid
    · subst same
      simp
    · rw [Function.update_of_ne same, Function.update_of_ne fun equal => same (by simp [← equal])]
  simp only [SimpleTServer.rename, SimpleTServer.replied, replies]

theorem rename_setEvent (server : SimpleTServer) (event : Nat) (read : ReadEvent) :
    (server.setEvent event read).rename names =
      (server.rename names).setEvent event (read.rename names) := by
  have readEvents : ∀ other, (Function.update server.readEvents event (some read) other).map
      (ReadEvent.rename names) = Function.update
        (fun event => (server.readEvents event).map (ReadEvent.rename names)) event
          (some (read.rename names)) other := by
    intro other
    by_cases same : other = event
    · subst same
      simp
    · simp [same]
  simp only [SimpleTServer.rename, SimpleTServer.setEvent, readEvents]

theorem sendReply_rename (server : SimpleTServer) (rid : Nat) (reply : Reply) :
    (server.rename names).sendReply (names rid) reply =
      (server.sendReply rid reply).map (SimpleTServer.rename names) := by
  simp only [SimpleTServer.sendReply, replies_rename]
  cases server.replies rid with
  | some earlier => rfl
  | none => exact congrArg Except.ok (rename_replied names server rid reply).symm

theorem answerRead_rename (server : SimpleTServer) (event : Nat) (read : ReadEvent) :
    (server.rename names).answerRead event (read.rename names) =
      (server.answerRead event read).map (SimpleTServer.rename names) := by
  have sent : ∀ value : String,
      ((server.rename names).setEvent event { read.rename names with phase := 2 }).sendReply
          (names read.rid) (.read value true) =
        ((server.setEvent event { read with phase := 2 }).sendReply read.rid
          (.read value true)).map (SimpleTServer.rename names) := by
    intro value
    rw [← sendReply_rename, rename_setEvent]
    rfl
  simp only [SimpleTServer.answerRead, map_bind]
  exact bind_congr sent

theorem runRead_rename (server : SimpleTServer) (event : Nat) :
    (server.rename names).runRead event =
      (server.runRead event).map (SimpleTServer.rename names) := by
  simp only [SimpleTServer.runRead, readEvents_rename]
  cases server.readEvents event with
  | none => rfl
  | some read =>
      obtain ⟨rid, tid, startTs, key, phase⟩ := read
      rcases phase with _ | _ | phase
      · change server.lockManager.tryBackwardLock key tid (uintPred startTs) true event startTs >>=
            _ = Except.map _ (server.lockManager.tryBackwardLock key tid (uintPred startTs) true
              event startTs >>= _)
        rw [map_bind]
        refine bind_congr fun outcome => ?_
        obtain ⟨manager, res, low⟩ := outcome
        cases res with
        | false =>
            exact congrArg Except.ok (rename_setEvent names { server with lockManager := manager }
              event ⟨rid, tid, low, key, 0⟩).symm
        | true =>
            exact answerRead_rename names { server with lockManager := manager } event
              ⟨rid, tid, low, key, 1⟩
      · exact answerRead_rename names _ _ _
      · rfl

theorem runEvents_rename (server : SimpleTServer) (events : List Nat) :
    SimpleTServer.runEvents events (server.rename names) =
      (SimpleTServer.runEvents events server).map (SimpleTServer.rename names) := by
  induction events generalizing server with
  | nil => rfl
  | cons event events ih =>
      simp only [SimpleTServer.runEvents, map_bind, runRead_rename]
      cases server.runRead event with
      | error fault => rfl
      | ok server' => exact ih server'

theorem finalize_rename (server : SimpleTServer) (tid : Nat) (success : Bool) :
    (server.rename names).finalize tid success = (server.finalize tid success).rename names := by
  have setAll_rename : ∀ writes ts server, SimpleTServer.setAll ts writes (server.rename names) =
      (SimpleTServer.setAll ts writes server).rename names := by
    intro writes ts
    induction writes with
    | nil => exact fun _ => rfl
    | cons write writes ih => exact fun server => ih (server.set write.1 ts write.2)
  simp only [SimpleTServer.finalize, show (server.rename names).rdyToCommit = server.rdyToCommit
    from rfl, show (server.rename names).pendWrites = server.pendWrites from rfl]
  split
  · rfl
  · split
    · rfl
    · cases success with
      | false => rfl
      | true => simp only [if_true, setAll_rename]; rfl

theorem run_rename (server : SimpleTServer) (made : ServerEvent) :
    (server.rename names).run (made.rename names) =
      (server.run made).map (SimpleTServer.rename names) := by
  cases made with
  | read event => exact runRead_rename names server event
  | write rid tid key value => exact sendReply_rename names (server.add tid key value) rid _
  | p1c rid tid startTs commitTs readNodes writeNodes nodes =>
      simp only [SimpleTServer.run, runP1C, ServerEvent.rename, map_bind]
      refine bind_congr fun outcome => ?_
      exact sendReply_rename names ({ server with lockManager := outcome.1 }.prepare tid commitTs)
        rid _
  | p2c rid tid vote nodes =>
      simp only [SimpleTServer.run, runP2C, ServerEvent.rename]
      have finished : ∀ outcome : AVLTreeLockManager × Finset Nat,
          (SimpleTServer.runEvents (ascending outcome.2)
              ({ server with lockManager := outcome.1 }.rename names) >>= fun server =>
            (server.finalize tid vote).sendReply (names rid) (.p2c nodes)) =
          (SimpleTServer.runEvents (ascending outcome.2)
              { server with lockManager := outcome.1 } >>= fun server =>
            (server.finalize tid vote).sendReply rid (.p2c nodes)).map
              (SimpleTServer.rename names) := by
        intro outcome
        rw [runEvents_rename, map_bind]
        cases SimpleTServer.runEvents (ascending outcome.2)
            { server with lockManager := outcome.1 } with
        | error fault => rfl
        | ok server' =>
            change (server'.rename names |>.finalize tid vote).sendReply (names rid) _ =
              ((server'.finalize tid vote).sendReply rid _).map _
            rw [finalize_rename, sendReply_rename]
      cases vote with
      | false => exact (bind_congr finished).trans (map_bind _ _ _).symm
      | true => exact (bind_congr finished).trans (map_bind _ _ _).symm

theorem getEvent_rename (getNode : Nat → Nat) (server : SimpleTServer) (rid event : Nat)
    (unset : Bool)
    (request : Request) :
    (server.rename names).getEvent getNode (names rid) event unset request =
      (server.getEvent getNode rid event unset request).map fun outcome =>
        (outcome.1.rename names, outcome.2.map (ServerEvent.rename names)) := by
  cases request with
  | read tid startTs key =>
      by_cases served : getNode key ∈ server.nodes
      · simp only [getEvent, map_bind, show (server.rename names).nodes = server.nodes from rfl,
          if_pos served]
        refine bind_congr fun _ => congrArg Except.ok ?_
        refine congrArg (·, some (ServerEvent.read event)) (rename_setEvent names { server with
          tidToNodes := insertNode server.tidToNodes tid (getNode key) } event
            ⟨rid, tid, startTs, key, 0⟩).symm
      · simp only [getEvent, show (server.rename names).nodes = server.nodes from rfl,
          if_neg served]
        rfl
  | write tid key value =>
      by_cases served : getNode key ∈ server.nodes
      · simp only [getEvent, map_bind, show (server.rename names).nodes = server.nodes from rfl,
          if_pos served]
        rfl
      · simp only [getEvent, map_bind, show (server.rename names).nodes = server.nodes from rfl,
          if_neg served, sendReply_rename]
        cases server.sendReply rid (.write false) <;> rfl
  | p1c tid startTs commitTs readNodes writeNodes =>
      simp only [getEvent, map_bind]
      refine bind_congr fun _ => ?_
      simp only [show (server.rename names).tidToWriteNodes = server.tidToWriteNodes from rfl]
      cases server.tidToWriteNodes tid with
      | none =>
          have sent := sendReply_rename names { server with tidWriteMutex := true } rid
            (.p1c ∅ unset)
          refine (congrArg (· >>= fun server => pure (server, none)) sent).trans ?_
          cases { server with tidWriteMutex := true }.sendReply rid (.p1c ∅ unset) <;> rfl
      | some nodes => rfl
  | p2c tid vote =>
      simp only [getEvent, map_bind]
      refine bind_congr fun _ => ?_
      simp only [show (server.rename names).tidToNodes = server.tidToNodes from rfl]
      cases server.tidToNodes tid with
      | none =>
          have sent := sendReply_rename names { server with tidMutex := true } rid (.p2c ∅)
          refine (congrArg (· >>= fun server => pure (server, none)) sent).trans ?_
          cases { server with tidMutex := true }.sendReply rid (.p2c ∅) <;> rfl
      | some nodes => rfl

/-- Requests with other numbers are handled alike. -/
theorem handle_rename (getNode : Nat → Nat) (server : SimpleTServer) (rid event : Nat)
    (unset : Bool)
    (request : Request) :
    (server.rename names).handle getNode (names rid) event unset request =
      (server.handle getNode rid event unset request).map (SimpleTServer.rename names) := by
  have taken := getEvent_rename names getNode server rid event unset request
  simp only [SimpleTServer.handle, taken, map_bind]
  cases server.getEvent getNode rid event unset request with
  | error fault => rfl
  | ok outcome =>
      obtain ⟨server', made⟩ := outcome
      cases made with
      | none => rfl
      | some made => exact run_rename names server' made

end Rename

/-! ## Numbers that are not in use -/

/-- The server has met no request of a number. -/
def SimpleTServer.Unused (server : SimpleTServer) (rid : Nat) : Prop :=
  server.replies rid = none ∧
    ∀ event read, server.readEvents event = some read → read.rid ≠ rid

theorem rename_rename (names names' : Equiv.Perm Nat) (server : SimpleTServer) :
    (server.rename names).rename names' = server.rename (names.trans names') := by
  simp only [SimpleTServer.rename, Option.map_map, Equiv.symm_trans_apply]
  rfl

@[simp]
theorem rename_refl (server : SimpleTServer) : server.rename (.refl Nat) = server := by
  have readEvents : ∀ event,
      (server.readEvents event).map (ReadEvent.rename (.refl Nat)) = server.readEvents event := by
    intro event
    cases server.readEvents event <;> rfl
  simp only [SimpleTServer.rename, readEvents]
  rfl

/-- Two numbers that are not in use can be exchanged. -/
theorem rename_swap {first second : Nat} (unused : server.Unused first)
    (unused' : server.Unused second) : server.rename (Equiv.swap first second) = server := by
  have readEvents : ∀ event,
      (server.readEvents event).map (ReadEvent.rename (Equiv.swap first second)) =
        server.readEvents event := by
    intro event
    cases made : server.readEvents event with
    | none => rfl
    | some read =>
        rw [Option.map_some, ReadEvent.rename,
          Equiv.swap_apply_of_ne_of_ne (unused.2 event read made) (unused'.2 event read made)]
  have replies : ∀ rid, server.replies ((Equiv.swap first second).symm rid) =
      server.replies rid := by
    intro rid
    rw [Equiv.symm_swap]
    by_cases isFirst : rid = first
    · rw [isFirst, Equiv.swap_apply_left, unused.1, unused'.1]
    · by_cases isSecond : rid = second
      · rw [isSecond, Equiv.swap_apply_right, unused.1, unused'.1]
      · rw [Equiv.swap_apply_of_ne_of_ne isFirst isSecond]
  simp only [SimpleTServer.rename, readEvents, replies]

theorem SimpleTServer.Unused.rename (unused : server.Unused rid) (names : Equiv.Perm Nat) :
    (server.rename names).Unused (names rid) := by
  refine ⟨by simpa using unused.1, fun event read made same => ?_⟩
  obtain ⟨old, here, rfl⟩ := Option.map_eq_some_iff.1 made
  exact unused.2 event old here (names.injective same)

/-! ## Handling a request under another number -/

/-- A request that is not a read makes no event at the address that it is given. -/
theorem handle_event (event' : Nat)
    (writes : ∀ tid startTs key, request ≠ .read tid startTs key) :
    server.handle getNode rid event unset request =
      server.handle getNode rid event' unset request := by
  cases request with
  | read tid startTs key => exact absurd rfl (writes tid startTs key)
  | write | p1c | p2c => rfl

/-- Only the reply to a `TP1C` has a flag that may be unset. -/
theorem handle_unset (unset' : Bool)
    (other : ∀ tid startTs commitTs readNodes writeNodes,
      request ≠ .p1c tid startTs commitTs readNodes writeNodes) :
    server.handle getNode rid event unset request =
      server.handle getNode rid event unset' request := by
  cases request with
  | p1c tid startTs commitTs readNodes writeNodes => exact absurd rfl (other _ _ _ _ _)
  | read | write | p2c => rfl

end Mvtx.Server
