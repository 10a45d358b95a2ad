import Mvtx.Client.GRPCClient
import Mvtx.Lib.Run

/-!
# Outstanding requests

The map from tags to handlers ought to hold the requests that are outstanding.
A wait that succeeds erases its tag from the map and then looks the handler up
there, to delete it.
-/

namespace Mvtx.Client

open Lib Lock

/-- A client, with what its callers know of their requests. -/
structure Tracking where
  client : GRPCClient
  /-- The records with which tags have been issued. -/
  requests : Nat → Option RpcArgs
  /-- The handlers of the tags that are not yet successfully awaited. -/
  outstanding : Nat → Option Nat
  /-- How many requests have been awaited that were answered with the status OK. -/
  answered : Nat

/-- A call of a client. -/
inductive ClientCall where
  | asyncRPC (tag : Nat) (args : RpcArgs)
  | waitAsyncReply (tag : Nat) (service : Service)

namespace Tracking

def initial : Tracking where
  client := .initial
  requests := fun _ => none
  outstanding := fun _ => none
  answered := 0

/-- The callers issue a tag once, and await what is outstanding. -/
def Permits (state : Tracking) : ClientCall → Prop
  | .asyncRPC tag _ => state.requests tag = none
  | .waitAsyncReply tag _ => state.outstanding tag ≠ none

/-- One call; a call that waits forever is not a step, as little as one that faults. -/
def step (state : Tracking) : ClientCall → Except (Option Fault) Tracking
  | .asyncRPC tag args =>
      .ok
        { state with
          client := state.client.asyncRPC tag args
          requests := Function.update state.requests tag (some args)
          outstanding := Function.update state.outstanding tag (some state.client.allocated) }
  | .waitAsyncReply tag service =>
      match state.client.waitAsyncReply service tag with
      | .error fault => .error (some fault)
      | .ok none => .error none
      | .ok (some (client, _, res)) =>
          .ok
            { state with
              client := client
              outstanding :=
                if res then Function.update state.outstanding tag none else state.outstanding
              answered :=
                if (state.requests tag).any service.answers then state.answered + 1
                else state.answered }

/--
The keys of the map are the outstanding tags, each mapped to its handler, and
the handlers that have not been deleted are those of the outstanding tags.
-/
structure Exact (state : Tracking) : Prop where
  mapped : ∀ tag, state.client.tagToHandler tag = (state.outstanding tag).map some
  live : ∀ handler, state.client.handlers handler ≠ none ↔
    ∃ tag, state.outstanding tag = some handler

/-- What holds of a client whatever replies it gets: no handler is ever deleted. -/
structure Kept (state : Tracking) : Prop where
  unissued : ∀ tag, state.requests tag = none →
    state.client.tagToHandler tag = none ∧ state.outstanding tag = none
  mapped : ∀ tag address, state.outstanding tag = some address →
    state.client.tagToHandler tag = some (some address) ∧
      ∃ handler, state.client.handlers address = some handler ∧
        (handler.completed = false → state.requests tag = some handler.args)
  awaited : ∀ tag, state.requests tag ≠ none → state.outstanding tag = none →
    state.client.tagToHandler tag = some none ∧ state.answered ≠ 0
  exists_awaited : state.answered ≠ 0 →
    ∃ tag, state.requests tag ≠ none ∧ state.outstanding tag = none
  live : ∀ address, state.client.handlers address ≠ none ↔ address < state.client.allocated
  owned : state.answered = 0 → ∀ address < state.client.allocated,
    ∃ tag, state.outstanding tag = some address

variable {state state' : Tracking} {tag : Nat}

theorem Kept.initial : Kept .initial where
  unissued := fun _ _ => ⟨rfl, rfl⟩
  mapped := fun _ _ outstanding => by simp [Tracking.initial] at outstanding
  awaited := fun _ issued => absurd rfl issued
  exists_awaited := fun answered => absurd rfl answered
  live := fun _ => by simp [Tracking.initial, GRPCClient.initial]
  owned := fun _ _ below => absurd below (Nat.not_lt_zero _)

/-- The map is exact as long as no request has been answered. -/
theorem Kept.exact_iff (kept : Kept state) : state.Exact ↔ state.answered = 0 := by
  constructor
  · intro exact'
    by_contra answered
    obtain ⟨tag, issued, awaited⟩ := kept.exists_awaited answered
    have mapped := exact'.mapped tag
    rw [(kept.awaited tag issued awaited).1, awaited] at mapped
    simp at mapped
  · intro none'
    refine ⟨fun tag => ?_, fun address => ⟨fun live => ?_, ?_⟩⟩
    · cases outstanding : state.outstanding tag with
      | some address => exact (kept.mapped tag address outstanding).1
      | none =>
          by_cases issued : state.requests tag = none
          · exact (kept.unissued tag issued).1
          · exact absurd none' (kept.awaited tag issued outstanding).2
    · exact kept.owned none' address ((kept.live address).1 live)
    · rintro ⟨tag, outstanding⟩
      obtain ⟨-, handler, live, -⟩ := kept.mapped tag address outstanding
      simp [live]

/-- A wait for an outstanding request, up to its result. -/
theorem waitAsyncReply_eq {client : GRPCClient} {service : Service} {address : Nat}
    {handler : RequestHandler} (mapped : client.tagToHandler tag = some (some address))
    (live : client.handlers address = some handler) :
    client.waitAsyncReply service tag =
      if handler.completed then .ok none
      else
        .ok (some
          ({ client with
            tagToHandler :=
              if service.answers handler.args then
                Function.update client.tagToHandler tag (some none)
              else client.tagToHandler
            handlers := Function.update client.handlers address
              (some ⟨proceed service handler.args, true⟩) },
          proceed service handler.args, service.answers handler.args)) := by
  have same : Function.update client.tagToHandler tag (some (some address)) =
      client.tagToHandler := by
    rw [← mapped, Function.update_eq_self]
  cases completed : handler.completed <;> cases answered : service.answers handler.args <;>
    simp [GRPCClient.waitAsyncReply, GRPCClient.subscript, GRPCClient.delete, deref, bind,
      Except.bind, pure, Except.pure, mapped, live, completed, answered, same]

theorem Kept.asyncRPC (kept : Kept state) (unissued : state.requests tag = none) (args : RpcArgs) :
    Kept
      { state with
        client := state.client.asyncRPC tag args
        requests := Function.update state.requests tag (some args)
        outstanding := Function.update state.outstanding tag (some state.client.allocated) } where
  unissued := fun other unissued' => by
    have differs : other ≠ tag := by
      rintro rfl
      simp at unissued'
    simp only [GRPCClient.asyncRPC, Function.update_of_ne differs] at unissued' ⊢
    exact kept.unissued other unissued'
  mapped := fun other address outstanding => by
    by_cases same : other = tag
    · subst same
      simp only [Function.update_self, Option.some.injEq] at outstanding
      subst outstanding
      exact ⟨by simp [GRPCClient.asyncRPC], ⟨args, false⟩, by simp [GRPCClient.asyncRPC], by simp⟩
    · simp only [GRPCClient.asyncRPC, Function.update_of_ne same] at outstanding ⊢
      obtain ⟨mapped, handler, live, waiting⟩ := kept.mapped other address outstanding
      have below := (kept.live address).1 (by simp [live])
      exact ⟨mapped, handler, by rw [Function.update_of_ne (by omega), live], waiting⟩
  awaited := fun other issued awaited => by
    have differs : other ≠ tag := by
      rintro rfl
      simp at awaited
    simp only [GRPCClient.asyncRPC, Function.update_of_ne differs] at issued awaited ⊢
    exact kept.awaited other issued awaited
  exists_awaited := fun answered => by
    obtain ⟨other, issued, awaited⟩ := kept.exists_awaited answered
    have differs : other ≠ tag := by
      rintro rfl
      exact issued unissued
    exact ⟨other, by simpa [differs] using issued, by simpa [differs] using awaited⟩
  live := fun address => by
    by_cases same : address = state.client.allocated
    · simp [GRPCClient.asyncRPC, same]
    · simp only [GRPCClient.asyncRPC, Function.update_of_ne same, kept.live]
      omega
  owned := fun none' address below => by
    by_cases same : address = state.client.allocated
    · exact ⟨tag, by simp [same]⟩
    · simp only [GRPCClient.asyncRPC] at below
      obtain ⟨other, outstanding⟩ := kept.owned none' address (by omega)
      have differs : other ≠ tag := by
        rintro rfl
        rw [(kept.unissued other unissued).2] at outstanding
        simp at outstanding
      exact ⟨other, by simpa [differs] using outstanding⟩

theorem Kept.waitAsyncReply (kept : Kept state) {service : Service}
    (stepped : state.step (.waitAsyncReply tag service) = .ok state')
    (permitted : state.Permits (.waitAsyncReply tag service)) : Kept state' := by
  obtain ⟨address, outstanding⟩ := Option.ne_none_iff_exists'.1 permitted
  obtain ⟨mapped, handler, live, waiting⟩ := kept.mapped tag address outstanding
  simp only [step, waitAsyncReply_eq mapped live] at stepped
  cases completed : handler.completed with
  | true => simp [completed] at stepped
  | false =>
      have request := waiting completed
      have below := (kept.live address).1 (by simp [live])
      simp only [completed, request, Option.any_some, Bool.false_eq_true, if_false] at stepped
      obtain rfl := Except.ok.inj stepped
      have liveNow : ∀ other, Function.update state.client.handlers address
          (some ⟨proceed service handler.args, true⟩) other ≠ none ↔
            other < state.client.allocated := by
        intro other
        by_cases same : other = address
        · simp [same, below]
        · simp only [Function.update_of_ne same, kept.live]
      have held : ∀ other found, state.outstanding other = some found →
          ∃ handler', Function.update state.client.handlers address
              (some ⟨proceed service handler.args, true⟩) found = some handler' ∧
            (handler'.completed = false → state.requests other = some handler'.args) := by
        intro other found isFound
        by_cases same : found = address
        · subst same
          exact ⟨_, Function.update_self .., by simp⟩
        · rw [Function.update_of_ne same]
          exact (kept.mapped other found isFound).2
      cases answered : service.answers handler.args with
      | false =>
          simp only [Bool.false_eq_true, if_false]
          exact ⟨kept.unissued, fun other found isFound =>
              ⟨(kept.mapped other found isFound).1, held other found isFound⟩,
            kept.awaited, kept.exists_awaited, liveNow, kept.owned⟩
      | true =>
          simp only [if_true]
          refine ⟨fun other unissued => ?_, fun other found isFound => ?_,
            fun other issued awaited => ?_, fun _ => ⟨tag, by simp [request], by simp⟩, liveNow,
            fun none' => absurd none' (Nat.succ_ne_zero _)⟩
          · have differs : other ≠ tag := by
              rintro rfl
              simp [request] at unissued
            simpa only [Function.update_of_ne differs] using kept.unissued other unissued
          · have differs : other ≠ tag := by
              rintro rfl
              simp at isFound
            simp only [Function.update_of_ne differs] at isFound ⊢
            exact ⟨(kept.mapped other found isFound).1, held other found isFound⟩
          · refine ⟨?_, Nat.succ_ne_zero _⟩
            by_cases same : other = tag
            · simp [same]
            · simp only [Function.update_of_ne same] at awaited ⊢
              exact (kept.awaited other issued awaited).1

theorem kept_of_reach (reached : Reach step Permits .initial state) : Kept state := by
  refine reached.invariant .initial fun state call state' kept permitted stepped => ?_
  cases call with
  | asyncRPC tag args =>
      obtain rfl := Except.ok.inj stepped
      exact kept.asyncRPC permitted args
  | waitAsyncReply tag service => exact kept.waitAsyncReply stepped permitted

/--
After any calls the map holds the outstanding requests, and the handlers that
have not been deleted are theirs, if and only if no request that was awaited has
been answered with the status OK.
-/
theorem exact_iff_of_reach (reached : Reach step Permits .initial state) :
    state.Exact ↔ state.answered = 0 :=
  (kept_of_reach reached).exact_iff

theorem reach_call (reached : Reach step Permits .initial state) (call : ClientCall)
    (permitted : state.Permits call) (stepped : state.step call = .ok state') :
    Reach step Permits .initial state' :=
  .tail reached permitted stepped

/-- A server that cannot be reached. -/
def offline : Service where
  read := fun _ => none
  write := fun _ => none
  p1c := fun _ => none
  p2c := fun _ => none

/-- The map after a wait that has failed. -/
theorem exists_exact_of_offline :
    ∃ state, Reach step Permits .initial state ∧ state.outstanding 135643 = some 0 ∧
      state.Exact := by
  have issued := reach_call .refl (.asyncRPC 135643 (.tp2c ⟨1, true, ∅⟩)) rfl rfl
  have awaited := reach_call issued (.waitAsyncReply 135643 offline) (Option.some_ne_none 0) rfl
  exact ⟨_, awaited, rfl, (exact_iff_of_reach awaited).2 rfl⟩

/-- After a wait that has succeeded the tag is mapped to a null pointer. -/
theorem exists_not_exact : ¬ ∀ state, Reach step Permits .initial state → state.Exact := by
  intro claim
  have issued := reach_call .refl (.asyncRPC 135643 (.tp2c ⟨1, true, ∅⟩)) rfl rfl
  have awaited := reach_call issued (.waitAsyncReply 135643 obliging) (Option.some_ne_none 0) rfl
  have mapped := (claim _ awaited).mapped 135643
  exact absurd mapped (by decide)

end Tracking

end Mvtx.Client
