import Mvtx.Server.SimpleTServer

/-!
# GRPCClient

The RPC client sends a request and writes the reply into the record that the
caller has passed with it: at once in `syncRPC`, and through a handler, which a
tag is mapped to, in `asyncRPC` and `waitAsyncReply`.

The server is a function from requests to outcomes: an error status, or OK with
a reply.  The message that a client holds after an error status has no field set.
The completion queue of a handler yields its one event with `ok` set.  The
system in which the Coordinators make their requests with such clients is that of
`Cluster.Rpc`.
-/

namespace Mvtx.Client

open Lib Lock Server

/-! ## Records and messages -/

/-- `rpc_read_args_t`. -/
structure RpcReadArgs where
  tid : Nat
  startTs : Nat
  key : Nat
  /-- The pointer to the value is unset, or points to a string. -/
  value : Option String
  status : Bool
  deriving DecidableEq

/-- `rpc_write_args_t`. -/
structure RpcWriteArgs where
  tid : Nat
  key : Nat
  value : String
  status : Bool
  deriving DecidableEq

/-- `rpc_p1c_args_t`. -/
structure RpcP1CArgs where
  tid : Nat
  startTs : Nat
  commitTs : Nat
  readNodes : Finset Nat
  writeNodes : Finset Nat
  nodes : Finset Nat
  vote : Bool
  deriving DecidableEq

/-- `rpc_p2c_args_t`; the vote is one of the arguments. -/
structure RpcP2CArgs where
  tid : Nat
  vote : Bool
  nodes : Finset Nat
  deriving DecidableEq

/-- The record of a request, whose type goes with the kind of the request. -/
inductive RpcArgs where
  | tread (args : RpcReadArgs)
  | twrite (args : RpcWriteArgs)
  | tp1c (args : RpcP1CArgs)
  | tp2c (args : RpcP2CArgs)
  deriving DecidableEq

structure ReadReply where
  value : String
  status : Bool

structure WriteReply where
  status : Bool

structure PhaseOneCommitReply where
  node : List Nat
  vote : Bool

structure PhaseTwoCommitReply where
  node : List Nat

/-- A message with no field set. -/
def ReadReply.unset : ReadReply := ⟨"", false⟩

@[inherit_doc ReadReply.unset]
def WriteReply.unset : WriteReply := ⟨false⟩

@[inherit_doc ReadReply.unset]
def PhaseOneCommitReply.unset : PhaseOneCommitReply := ⟨[], false⟩

@[inherit_doc ReadReply.unset]
def PhaseTwoCommitReply.unset : PhaseTwoCommitReply := ⟨[]⟩

def makeReadRequest (args : RpcReadArgs) : Request :=
  .read args.tid args.startTs args.key

def makeWriteRequest (args : RpcWriteArgs) : Request :=
  .write args.tid args.key args.value

def makePhaseOneCommitRequest (args : RpcP1CArgs) : Request :=
  .p1c args.tid args.startTs args.commitTs args.readNodes args.writeNodes

def makePhaseTwoCommitRequest (args : RpcP2CArgs) : Request :=
  .p2c args.tid args.vote

/-- What a server makes of requests; `none` is an error status. -/
structure Service where
  read : Request → Option ReadReply
  write : Request → Option WriteReply
  p1c : Request → Option PhaseOneCommitReply
  p2c : Request → Option PhaseTwoCommitReply

/-- Whether the request of a record is answered with the status OK. -/
def Service.answers (service : Service) : RpcArgs → Bool
  | .tread args => (service.read (makeReadRequest args)).isSome
  | .twrite args => (service.write (makeWriteRequest args)).isSome
  | .tp1c args => (service.p1c (makePhaseOneCommitRequest args)).isSome
  | .tp2c args => (service.p2c (makePhaseTwoCommitRequest args)).isSome

/-! ## Synchronous requests -/

/-- `syncRPC`; the result is whether the status is OK. -/
def syncRPC (service : Service) : RpcArgs → Exec (RpcArgs × Bool)
  | .tread args => do
      let status := service.read (makeReadRequest args)
      let reply := status.getD .unset
      let args := { args with status := status.isSome && reply.status }
      if args.status then do
        -- The value is assigned to the string behind the pointer.
        let _ ← deref args.value
        return (.tread { args with value := some reply.value }, status.isSome)
      else
        return (.tread args, status.isSome)
  | .twrite args =>
      let status := service.write (makeWriteRequest args)
      let reply := status.getD .unset
      .ok (.twrite { args with status := status.isSome && reply.status }, status.isSome)
  | .tp1c args =>
      match service.p1c (makePhaseOneCommitRequest args) with
      | some reply =>
          .ok (.tp1c
            { args with nodes := args.nodes ∪ reply.node.toFinset, vote := reply.vote }, true)
      | none => .ok (.tp1c args, false)
  | .tp2c args =>
      match service.p2c (makePhaseTwoCommitRequest args) with
      | some reply => .ok (.tp2c { args with nodes := args.nodes ∪ reply.node.toFinset }, true)
      | none => .ok (.tp2c args, false)

/-! ## Asynchronous requests -/

/-- `proceed` of a handler, for the record it points to. -/
def proceed (service : Service) : RpcArgs → RpcArgs
  | .tread args =>
      let reply := (service.read (makeReadRequest args)).getD .unset
      let args := { args with status := reply.status }
      -- The value is a new string.
      .tread (if args.status then { args with value := some reply.value } else args)
  | .twrite args =>
      let reply := (service.write (makeWriteRequest args)).getD .unset
      .twrite { args with status := reply.status }
  | .tp1c args =>
      let reply := (service.p1c (makePhaseOneCommitRequest args)).getD .unset
      .tp1c { args with nodes := args.nodes ∪ reply.node.toFinset, vote := reply.vote }
  | .tp2c args =>
      let reply := (service.p2c (makePhaseTwoCommitRequest args)).getD .unset
      .tp2c { args with nodes := args.nodes ∪ reply.node.toFinset }

/-- A handler of an asynchronous request. -/
structure RequestHandler where
  /-- The record that the handler points to. -/
  args : RpcArgs
  /-- Whether the completion queue has yielded its event. -/
  completed : Bool

/-- The state of an RPC client. -/
structure GRPCClient where
  /-- The keys of the map, and the pointers they are mapped to, which may be null. -/
  tagToHandler : Nat → Option (Option Nat)
  /-- The handlers that have not been deleted. -/
  handlers : Nat → Option RequestHandler
  /-- How many handlers have been allocated; they are at the addresses below. -/
  allocated : Nat

namespace GRPCClient

def initial : GRPCClient where
  tagToHandler := fun _ => none
  handlers := fun _ => none
  allocated := 0

/-- `_tag_to_handler[tag]`, which inserts a null pointer under a new key. -/
def subscript (client : GRPCClient) (tag : Nat) : GRPCClient × Option Nat :=
  let pointer := (client.tagToHandler tag).join
  ({ client with tagToHandler := Function.update client.tagToHandler tag (some pointer) }, pointer)

/-- `delete` of a handler. -/
def delete (client : GRPCClient) : Option Nat → Exec GRPCClient
  | none => .ok client
  | some handler => do
      let _ ← deref (client.handlers handler)
      return { client with handlers := Function.update client.handlers handler none }

def asyncRPC (client : GRPCClient) (tag : Nat) (args : RpcArgs) : GRPCClient where
  tagToHandler := Function.update client.tagToHandler tag (some (some client.allocated))
  handlers := Function.update client.handlers client.allocated (some ⟨args, false⟩)
  allocated := client.allocated + 1

/--
Wait for the reply of a request.  There is no result where the call waits
forever, because the event of the completion queue has been taken before.
-/
def waitAsyncReply (client : GRPCClient) (service : Service) (tag : Nat) :
    Exec (Option (GRPCClient × RpcArgs × Bool)) := do
  let (client, pointer) := client.subscript tag
  let address ← deref pointer
  let handler ← deref (client.handlers address)
  if handler.completed then
    return none
  else do
    let args := proceed service handler.args
    let client :=
      { client with handlers := Function.update client.handlers address (some ⟨args, true⟩) }
    let res := service.answers handler.args
    if res then do
      let client :=
        { client with tagToHandler := Function.update client.tagToHandler tag none }
      let (client, pointer) := client.subscript tag
      let client ← client.delete pointer
      return some (client, args, res)
    else
      return some (client, args, res)

end GRPCClient

/-! ## The two kinds agree -/

/-- The record as callers create it: the pointer to the value of a read is unset. -/
def RpcArgs.Fresh : RpcArgs → Prop
  | .tread args => args.value = none
  | _ => True

/-- Both kinds of requests return alike and leave the record alike. -/
def Agree (service : Service) (client : GRPCClient) (tag : Nat) (args : RpcArgs) : Prop :=
  ∃ args' res client', syncRPC service args = .ok (args', res) ∧
    (client.asyncRPC tag args).waitAsyncReply service tag = .ok (some (client', args', res))

/--
A read is not answered with a value, and a `TP1C` whose record holds a vote is
answered with the status OK.
-/
def Alike (service : Service) : RpcArgs → Prop
  | .tread args => ∀ reply, service.read (makeReadRequest args) = some reply → reply.status = false
  | .tp1c args => service.p1c (makePhaseOneCommitRequest args) = none → args.vote = false
  | _ => True

/-- The wait for the reply of a request that has just been sent. -/
theorem waitAsyncReply_asyncRPC (service : Service) (client : GRPCClient) (tag : Nat)
    (args : RpcArgs) :
    ∃ client', (client.asyncRPC tag args).waitAsyncReply service tag =
      .ok (some (client', proceed service args, service.answers args)) := by
  cases answered : service.answers args <;>
    simp [GRPCClient.waitAsyncReply, GRPCClient.asyncRPC, GRPCClient.subscript, GRPCClient.delete,
      deref, bind, Except.bind, pure, Except.pure, answered]

theorem agree_iff_syncRPC {service : Service} {client : GRPCClient} {tag : Nat} {args : RpcArgs} :
    Agree service client tag args ↔
      syncRPC service args = .ok (proceed service args, service.answers args) := by
  obtain ⟨client', waited⟩ := waitAsyncReply_asyncRPC service client tag args
  constructor
  · rintro ⟨args', res, client'', returned, waited'⟩
    rw [waited] at waited'
    simp only [Except.ok.injEq, Option.some.injEq, Prod.mk.injEq] at waited'
    obtain ⟨-, rfl, rfl⟩ := waited'
    exact returned
  · exact fun returned => ⟨_, _, client', returned, waited⟩

/--
A synchronous request agrees with an asynchronous one, unless it is a read that
is answered with a value, or a `TP1C` that fails and finds a vote in its record.
-/
theorem agree_iff {service : Service} {client : GRPCClient} {tag : Nat} {args : RpcArgs}
    (fresh : args.Fresh) : Agree service client tag args ↔ Alike service args := by
  rw [agree_iff_syncRPC]
  cases args with
  | tread args =>
      simp only [RpcArgs.Fresh] at fresh
      cases outcome : service.read (makeReadRequest args) with
      | none =>
          simp [syncRPC, proceed, Service.answers, Alike, outcome, ReadReply.unset, pure,
            Except.pure]
      | some reply =>
          cases status : reply.status <;>
            simp [syncRPC, proceed, Service.answers, Alike, outcome, status, fresh, deref, bind,
              Except.bind, pure, Except.pure]
  | twrite args =>
      cases outcome : service.write (makeWriteRequest args) <;>
        simp [syncRPC, proceed, Service.answers, Alike, outcome, WriteReply.unset]
  | tp1c args =>
      cases outcome : service.p1c (makePhaseOneCommitRequest args) with
      | none =>
          obtain ⟨tid, startTs, commitTs, readNodes, writeNodes, nodes, vote⟩ := args
          simp [syncRPC, proceed, Service.answers, Alike, outcome, PhaseOneCommitReply.unset]
      | some reply => simp [syncRPC, proceed, Service.answers, Alike, outcome]
  | tp2c args =>
      cases outcome : service.p2c (makePhaseTwoCommitRequest args) <;>
        simp [syncRPC, proceed, Service.answers, Alike, outcome, PhaseTwoCommitReply.unset]

/-- A server that finds a value for every read and votes for every commit. -/
def obliging : Service where
  read := fun _ => some ⟨"0", true⟩
  write := fun _ => some ⟨true⟩
  p1c := fun _ => some ⟨[0], true⟩
  p2c := fun _ => some ⟨[0]⟩

theorem agree_of_obliging :
    Agree obliging .initial 135643 (.tp1c ⟨1, 5, 5, {0}, {0}, ∅, true⟩) :=
  (agree_iff (show RpcArgs.Fresh (.tp1c _) from trivial)).2 (by simp [Alike, obliging])

/-- The value of a read is written through the unset pointer. -/
theorem exists_not_agree :
    ¬ ∀ (service : Service) (client : GRPCClient) (tag : Nat) (args : RpcArgs),
      args.Fresh → Agree service client tag args := by
  intro claim
  obtain ⟨_, _, _, returned, -⟩ :=
    claim obliging .initial 135643 (.tread ⟨1, 5, 7, none, false⟩) rfl
  exact absurd returned (by simp [syncRPC, obliging, deref, bind, Except.bind])

end Mvtx.Client
