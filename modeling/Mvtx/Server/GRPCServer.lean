import Mvtx.Lib.Run
import Mvtx.Lock.Basic

/-!
# GRPCServer

The completion queue of the RPC server yields handlers, each in the state
`PROCESS`, for a request that has come in, or in the state `FINISH`, for a reply
that has been sent.  Four calls take them from there, each of one kind, and
keep the others in two queues.

The events are a list of what the completion queue will yield.  A call that
does not block takes as many of them as there are at that time.
-/

namespace Mvtx.Server

open Lib

/-- `request_t`. -/
inductive RequestType where
  | tread
  | twrite
  | tp1c
  | tp2c
  deriving DecidableEq

/-- The status of a handler. -/
inductive RequestStatus where
  | create
  | process
  | finish
  deriving DecidableEq

/-- A handler: its address, which is the `rid`, and the type of its request. -/
structure RequestHandler where
  rid : Nat
  request : RequestType
  deriving DecidableEq

/-- What the completion queue yields: a handler in some state. -/
structure CompletionEvent where
  handler : RequestHandler
  status : RequestStatus
  deriving DecidableEq

/-- The queues of the server; the front of each is the head. -/
structure GRPCServer where
  requestQueue : List RequestHandler
  replyQueue : List RequestHandler
  deriving DecidableEq

namespace GRPCServer

def initial : GRPCServer where
  requestQueue := []
  replyQueue := []

/--
What `processSyncQueue` and `processAsyncQueue` do with an event.  They also
make a handler for the next request of the type, which may be an event later.
-/
def processEvent (server : GRPCServer) (event : CompletionEvent) : GRPCServer :=
  match event.status with
  | .process => { server with requestQueue := server.requestQueue ++ [event.handler] }
  | .finish => { server with replyQueue := server.replyQueue ++ [event.handler] }
  | .create => server

/-- Take the next event; there is no result where there is none. -/
def processSyncQueue (server : GRPCServer) :
    List CompletionEvent → Option (GRPCServer × List CompletionEvent)
  | [] => none
  | event :: events => some (server.processEvent event, events)

/-- Take the events that are available. -/
def processAsyncQueue (server : GRPCServer) :
    Nat → List CompletionEvent → GRPCServer × List CompletionEvent
  | available + 1, event :: events =>
      processAsyncQueue (server.processEvent event) available events
  | 0, events => (server, events)
  | _ + 1, [] => (server, [])

/-- The loop of `nextRequest`; there is no result where it waits forever. -/
def awaitRequest (server : GRPCServer) :
    List CompletionEvent → Option (GRPCServer × List CompletionEvent)
  | [] => if server.requestQueue = [] then none else some (server, [])
  | event :: events =>
      if server.requestQueue = [] then awaitRequest (server.processEvent event) events
      else some (server, event :: events)

/-- Take the front of the requests, which must not be empty. -/
def popRequest (server : GRPCServer) : Exec (GRPCServer × RequestHandler) :=
  match server.requestQueue with
  | [] => .error .emptyStack
  | handler :: handlers => .ok ({ server with requestQueue := handlers }, handler)

/-- Take the front of the replies, which must not be empty. -/
def popReply (server : GRPCServer) : Exec (GRPCServer × RequestHandler) :=
  match server.replyQueue with
  | [] => .error .emptyStack
  | handler :: handlers => .ok ({ server with replyQueue := handlers }, handler)

end GRPCServer

/-! ## Runs of calls -/

/-- A server between calls, and what has come of the events. -/
structure Delivery where
  server : GRPCServer
  /-- The events that are still to come. -/
  events : List CompletionEvent
  /-- The handlers that the two request calls have returned. -/
  requests : List RequestHandler
  /-- The handlers that the two reply calls have returned. -/
  replies : List RequestHandler
  deriving DecidableEq

/-- A call of the server; `available` is how many events there are at the time. -/
inductive ServerCall where
  | nextRequest
  | asyncNextRequest (available : Nat)
  | nextCompletedReply
  | asyncNextCompletedReply (available : Nat)

namespace Delivery

def initial (events : List CompletionEvent) : Delivery where
  server := .initial
  events := events
  requests := []
  replies := []

/-- The server has taken some events. -/
def take (state : Delivery) (taken : GRPCServer × List CompletionEvent) : Delivery :=
  { state with server := taken.1, events := taken.2 }

/-- Return the front of the requests. -/
def returnRequest (state : Delivery) : Except (Option Fault) Delivery :=
  match state.server.popRequest with
  | .error fault => .error (some fault)
  | .ok (server, handler) =>
      .ok { state with server := server, requests := state.requests ++ [handler] }

/-- Return the front of the replies. -/
def returnReply (state : Delivery) : Except (Option Fault) Delivery :=
  match state.server.popReply with
  | .error fault => .error (some fault)
  | .ok (server, handler) =>
      .ok { state with server := server, replies := state.replies ++ [handler] }

/-- One call; one that waits forever is an error without a fault. -/
def step (state : Delivery) : ServerCall → Except (Option Fault) Delivery
  | .nextRequest =>
      match state.server.awaitRequest state.events with
      | none => .error none
      | some taken => (state.take taken).returnRequest
  | .asyncNextRequest available =>
      let state := state.take (state.server.processAsyncQueue available state.events)
      if state.server.requestQueue = [] then .ok state else state.returnRequest
  | .nextCompletedReply =>
      match state.server.processSyncQueue state.events with
      | none => .error none
      | some taken => (state.take taken).returnReply
  | .asyncNextCompletedReply available =>
      let state := state.take (state.server.processAsyncQueue available state.events)
      if state.server.replyQueue = [] then .ok state else state.returnReply

/-- The handlers of events of one kind. -/
def handlersIn (status : RequestStatus) (events : List CompletionEvent) : List RequestHandler :=
  (events.filter (·.status = status)).map (·.handler)

/--
Of the events that have been taken, the handlers of each kind have been returned
or are queued, in the order of the events.
-/
def Delivered (events : List CompletionEvent) (state : Delivery) : Prop :=
  ∃ arrived, events = arrived ++ state.events ∧
    state.requests ++ state.server.requestQueue = handlersIn .process arrived ∧
    state.replies ++ state.server.replyQueue = handlersIn .finish arrived

/--
A call returns, or waits forever when no handler of its kind is queued or to
come; it does not read the front of an empty queue.
-/
def Right (state : Delivery) (call : ServerCall) : Prop :=
  match state.step call with
  | .ok _ => True
  | .error (some _) => False
  | .error none =>
      match call with
      | .nextRequest | .asyncNextRequest _ =>
          state.server.requestQueue = [] ∧ handlersIn .process state.events = []
      | .nextCompletedReply | .asyncNextCompletedReply _ =>
          state.server.replyQueue = [] ∧ handlersIn .finish state.events = []

/--
Where `nextCompletedReply` is called there is no event to come and no reply
queued, or there is an event, and a reply is queued or the event is one.
-/
def Meets (state : Delivery) : ServerCall → Prop
  | .nextCompletedReply =>
      match state.events with
      | [] => state.server.replyQueue = []
      | event :: _ => state.server.replyQueue ≠ [] ∨ event.status = .finish
  | _ => True

variable {events : List CompletionEvent} {state state' : Delivery} {call : ServerCall}

theorem delivered_initial (events : List CompletionEvent) : Delivered events (initial events) :=
  ⟨[], rfl, rfl, rfl⟩

/-- Taking one event. -/
theorem Delivered.processEvent {server : GRPCServer} {event : CompletionEvent}
    {rest : List CompletionEvent} {requests replies : List RequestHandler}
    (delivered : Delivered events ⟨server, event :: rest, requests, replies⟩) :
    Delivered events ⟨server.processEvent event, rest, requests, replies⟩ := by
  obtain ⟨arrived, rfl, inRequests, inReplies⟩ := delivered
  refine ⟨arrived ++ [event], by simp, ?_, ?_⟩
  · cases status : event.status <;>
      simp_all [handlersIn, GRPCServer.processEvent, List.filter_append, ← List.append_assoc]
  · cases status : event.status <;>
      simp_all [handlersIn, GRPCServer.processEvent, List.filter_append, ← List.append_assoc]

theorem Delivered.awaitRequest {taken : GRPCServer × List CompletionEvent}
    (delivered : Delivered events state)
    (awaited : state.server.awaitRequest state.events = some taken) :
    Delivered events (state.take taken) ∧ taken.1.requestQueue ≠ [] := by
  obtain ⟨server, rest, requests, replies⟩ := state
  simp only at awaited
  induction rest generalizing server with
  | nil =>
      rw [GRPCServer.awaitRequest] at awaited
      split_ifs at awaited with empty
      obtain rfl := Option.some.inj awaited
      exact ⟨delivered, empty⟩
  | cons event rest ih =>
      rw [GRPCServer.awaitRequest] at awaited
      split_ifs at awaited with empty
      · exact ih (server.processEvent event) delivered.processEvent awaited
      · obtain rfl := Option.some.inj awaited
        exact ⟨delivered, empty⟩

/-- `nextRequest` waits forever only where no request is queued or to come. -/
theorem awaitRequest_eq_none {server : GRPCServer}
    (waits : server.awaitRequest events = none) :
    server.requestQueue = [] ∧ handlersIn .process events = [] := by
  induction events generalizing server with
  | nil =>
      rw [GRPCServer.awaitRequest] at waits
      split_ifs at waits with empty
      exact ⟨empty, rfl⟩
  | cons event events ih =>
      rw [GRPCServer.awaitRequest] at waits
      split_ifs at waits with empty
      obtain ⟨queue, later⟩ := ih waits
      have other : event.status ≠ .process := by
        intro isRequest
        simp [GRPCServer.processEvent, isRequest] at queue
      exact ⟨empty, by simpa [handlersIn, other] using later⟩

theorem Delivered.processAsyncQueue (delivered : Delivered events state) (available : Nat) :
    Delivered events (state.take (state.server.processAsyncQueue available state.events)) := by
  obtain ⟨server, rest, requests, replies⟩ := state
  simp only
  induction rest generalizing server available with
  | nil => cases available <;> exact delivered
  | cons event rest ih =>
      cases available with
      | zero => exact delivered
      | succ available => exact ih available (server.processEvent event) delivered.processEvent

/-- Returning the front of the requests, if there is one. -/
theorem Delivered.returnRequest (delivered : Delivered events state)
    (some' : state.server.requestQueue ≠ []) :
    ∃ state', state.returnRequest = .ok state' ∧ Delivered events state' := by
  obtain ⟨arrived, whole, requests, replies⟩ := delivered
  obtain ⟨handler, handlers, queue⟩ := List.exists_cons_of_ne_nil some'
  refine ⟨{ state with
    server := { state.server with requestQueue := handlers }
    requests := state.requests ++ [handler] }, ?_, arrived, whole, ?_, replies⟩
  · simp [Delivery.returnRequest, GRPCServer.popRequest, queue]
  · rw [← requests, queue]
    simp

/-- Returning the front of the replies, if there is one. -/
theorem Delivered.returnReply (delivered : Delivered events state)
    (some' : state.server.replyQueue ≠ []) :
    ∃ state', state.returnReply = .ok state' ∧ Delivered events state' := by
  obtain ⟨arrived, whole, requests, replies⟩ := delivered
  obtain ⟨handler, handlers, queue⟩ := List.exists_cons_of_ne_nil some'
  refine ⟨{ state with
    server := { state.server with replyQueue := handlers }
    replies := state.replies ++ [handler] }, ?_, arrived, whole, requests, ?_⟩
  · simp [Delivery.returnReply, GRPCServer.popReply, queue]
  · rw [← replies, queue]
    simp

theorem returnReply_of_empty (empty : state.server.replyQueue = []) :
    state.returnReply = .error (some .emptyStack) := by
  rw [returnReply, GRPCServer.popReply, empty]

/-- A call that returns keeps the order of the events. -/
theorem Delivered.step (delivered : Delivered events state)
    (stepped : state.step call = .ok state') : Delivered events state' := by
  have ofReturn : ∀ {result : Except (Option Fault) Delivery}, result = .ok state' →
      (∃ returned, result = .ok returned ∧ Delivered events returned) →
        Delivered events state' := by
    rintro result same ⟨returned, isReturned, delivered'⟩
    obtain rfl := Except.ok.inj (isReturned.symm.trans same)
    exact delivered'
  cases call with
  | nextRequest =>
      simp only [Delivery.step] at stepped
      cases awaited : state.server.awaitRequest state.events with
      | none => simp [awaited] at stepped
      | some taken =>
          rw [awaited] at stepped
          obtain ⟨delivered', some'⟩ := delivered.awaitRequest awaited
          exact ofReturn stepped (delivered'.returnRequest some')
  | asyncNextRequest available =>
      simp only [Delivery.step] at stepped
      have delivered' := delivered.processAsyncQueue available
      split_ifs at stepped with empty
      · obtain rfl := Except.ok.inj stepped
        exact delivered'
      · exact ofReturn stepped (delivered'.returnRequest empty)
  | nextCompletedReply =>
      obtain ⟨server, rest, requests, replies⟩ := state
      cases rest with
      | nil => simp [Delivery.step, GRPCServer.processSyncQueue] at stepped
      | cons event rest =>
          simp only [Delivery.step, GRPCServer.processSyncQueue] at stepped
          have delivered' := delivered.processEvent
          by_cases empty : (server.processEvent event).replyQueue = []
          · rw [returnReply_of_empty empty] at stepped
            simp at stepped
          · exact ofReturn stepped (delivered'.returnReply empty)
  | asyncNextCompletedReply available =>
      simp only [Delivery.step] at stepped
      have delivered' := delivered.processAsyncQueue available
      split_ifs at stepped with empty
      · obtain rfl := Except.ok.inj stepped
        exact delivered'
      · exact ofReturn stepped (delivered'.returnReply empty)

theorem right_of_ok (stepped : state.step call = .ok state') : Right state call := by
  unfold Right
  rw [stepped]
  trivial

/-- Three of the calls do what they should, and the fourth where its condition is met. -/
theorem Delivered.right_iff (delivered : Delivered events state) (call : ServerCall) :
    Right state call ↔ Meets state call := by
  cases call with
  | nextRequest =>
      refine iff_of_true ?_ trivial
      cases awaited : state.server.awaitRequest state.events with
      | none =>
          have waits : state.step .nextRequest = .error none := by simp [Delivery.step, awaited]
          unfold Right
          rw [waits]
          exact awaitRequest_eq_none awaited
      | some taken =>
          obtain ⟨delivered', some'⟩ := delivered.awaitRequest awaited
          obtain ⟨state', returned, -⟩ := delivered'.returnRequest some'
          exact right_of_ok (show state.step .nextRequest = .ok state' by
            simp [Delivery.step, awaited, returned])
  | asyncNextRequest available =>
      refine iff_of_true ?_ trivial
      have delivered' := delivered.processAsyncQueue available
      by_cases empty :
          (state.server.processAsyncQueue available state.events).1.requestQueue = []
      · exact right_of_ok (if_pos empty)
      · obtain ⟨state', returned, -⟩ := delivered'.returnRequest empty
        exact right_of_ok ((if_neg empty).trans returned)
  | nextCompletedReply =>
      obtain ⟨server, rest, requests, replies⟩ := state
      cases rest with
      | nil =>
          simp [Right, Meets, Delivery.step, GRPCServer.processSyncQueue, handlersIn]
      | cons event rest =>
          have queued : (server.processEvent event).replyQueue ≠ [] ↔
              server.replyQueue ≠ [] ∨ event.status = .finish := by
            cases status : event.status <;> simp [GRPCServer.processEvent, status]
          have delivered' := delivered.processEvent
          refine Iff.trans ?_ queued
          by_cases empty : (server.processEvent event).replyQueue = []
          · refine iff_of_false ?_ (not_not.2 empty)
            have failed : Delivery.step ⟨server, event :: rest, requests, replies⟩
                .nextCompletedReply = .error (some .emptyStack) := returnReply_of_empty empty
            unfold Right
            rw [failed]
            exact id
          · refine iff_of_true ?_ empty
            obtain ⟨state', returned, -⟩ := delivered'.returnReply empty
            exact right_of_ok (show Delivery.step _ .nextCompletedReply = .ok state' from returned)
  | asyncNextCompletedReply available =>
      refine iff_of_true ?_ trivial
      have delivered' := delivered.processAsyncQueue available
      by_cases empty :
          (state.server.processAsyncQueue available state.events).1.replyQueue = []
      · exact right_of_ok (if_pos empty)
      · obtain ⟨state', returned, -⟩ := delivered'.returnReply empty
        exact right_of_ok ((if_neg empty).trans returned)

/--
In every run the handlers are returned in the order of their events, and a call
does what it should if and only if its condition is met: `nextCompletedReply`
takes one event, and then the front of the replies, whatever the event was.
-/
theorem delivered_of_reach (reached : Reach step (fun _ _ => True) (initial events) state) :
    Delivered events state ∧ ∀ call, Right state call ↔ Meets state call := by
  have delivered : Delivered events state :=
    reached.invariant (delivered_initial events)
      fun _ _ _ delivered _ stepped => delivered.step stepped
  exact ⟨delivered, delivered.right_iff⟩

/-- A request comes in and is replied to. -/
theorem delivered_of_read :
    ∃ state, Reach step (fun _ _ => True)
        (initial [⟨⟨1, .tread⟩, .process⟩, ⟨⟨1, .tread⟩, .finish⟩]) state ∧
      state.requests = [⟨1, .tread⟩] ∧ Right state .nextCompletedReply := by
  have reached : Reach step (fun _ _ => True)
      (initial [⟨⟨1, .tread⟩, .process⟩, ⟨⟨1, .tread⟩, .finish⟩])
      ⟨.initial, [⟨⟨1, .tread⟩, .finish⟩], [⟨1, .tread⟩], []⟩ :=
    .tail .refl (show True from trivial) (show step _ .nextRequest = _ from rfl)
  exact ⟨_, reached, rfl, ((delivered_of_reach reached).2 .nextCompletedReply).2 (.inr rfl)⟩

/-- A request comes in while a reply is awaited. -/
theorem exists_not_right :
    ¬ ∀ events state, Reach step (fun _ _ => True) (initial events) state →
      Delivered events state ∧ ∀ call, Right state call :=
  fun claim => (claim [⟨⟨1, .tread⟩, .process⟩] _ .refl).2 .nextCompletedReply

end Delivery

end Mvtx.Server
