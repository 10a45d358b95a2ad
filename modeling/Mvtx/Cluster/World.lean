import Mvtx.Cluster.System

/-!
# Handlers in any order

The same clients and server with the messages left out.  A request of a
Coordinator has no effect before its handler runs, and the Coordinator does
nothing while it waits, so a step here is a call of a Coordinator together with
the handler that it runs into; the handlers of all Coordinators come in any
order.  There is one address, so a round of the loops for `TP1C` and `TP2C` is
one handler.

A read that is blocked is answered by the handler of another transaction; the
value is collected by the next call of its Coordinator, whose RPC client is left
out here as it is in `System`.
-/

namespace Mvtx.Cluster

open Lib Server

/-- Where a transaction stands between two handlers. -/
inductive Stage where
  /-- Between two calls. -/
  | active
  /-- In `read`, or past it with the reply still to be collected. -/
  | reading (rid key node : Nat)
  /-- In the loop for `TP1C`, of `commit` or of `abort`. -/
  | phaseOne (committing : Bool) (remNodes : Finset Nat) (vote : Bool)
  /-- In the loop for `TP2C`, with the vote to send. -/
  | phaseTwo (committing vote : Bool) (remNodes : Finset Nat)
  /-- `commit` or `abort` has returned. -/
  | ended (committing vote : Bool)
  deriving DecidableEq

/-- A Coordinator, that is to say its transaction. -/
structure Transaction where
  tid : Nat
  startTs : Nat
  readNodes : Finset Nat
  writeNodes : Finset Nat
  pendWrites : Nat → Option String
  /-- What `read` has returned, in order; nothing stands for an unset value. -/
  returned : List (Nat × Option String)
  stage : Stage

/-- `Coordinator()`. -/
def Transaction.new (tid startTs : Nat) : Transaction where
  tid := tid
  startTs := startTs
  readNodes := ∅
  writeNodes := ∅
  pendWrites := fun _ => none
  returned := []
  stage := .active

/-- The nodes that `TP2C` is sent to. -/
def Transaction.nodes (transaction : Transaction) : Finset Nat :=
  transaction.writeNodes ∪ transaction.readNodes

/-- The server and all transactions. -/
structure World where
  server : SimpleTServer
  transactions : Nat → Option Transaction
  /-- How many transactions have begun. -/
  begun : Nat
  /-- The states of the generators of transaction IDs. -/
  curIds : Nat → Nat
  /-- The requests that have been handled, each with its transaction. -/
  handled : List (Nat × Request)

/-- A step: one handler at most. -/
inductive Move where
  /-- A Coordinator is created in a process. -/
  | start (process tid startTs : Nat)
  /-- `read` is called; its event gets some address. -/
  | read (id key event : Nat)
  | write (id key : Nat) (value : String)
  /-- `commit` or `abort` is called. -/
  | finish (id : Nat) (committing : Bool)
  /-- A round of the loop for `TP1C`, or the end of the loop. -/
  | phaseOne (id : Nat) (unset : Bool)
  /-- A round of the loop for `TP2C`, or the end of the loop. -/
  | phaseTwo (id : Nat)
  deriving DecidableEq

namespace World

/-- The first state. -/
def first : World where
  server := .initial
  transactions := fun _ => none
  begun := 0
  curIds := fun _ => 0
  handled := []

/-- How many requests have been handled; the requests are numbered from one on. -/
def sent (world : World) : Nat :=
  world.handled.length

/-- The server handles a request of a transaction. -/
def serve (getNode : Nat → Nat) (world : World) (id event : Nat) (unset : Bool)
    (request : Request) : Except Halt World :=
  match world.server.handle getNode (world.sent + 1) event unset request with
  | .error fault => .error (.fault fault)
  | .ok server =>
      .ok { world with server := server, handled := world.handled ++ [(id, request)] }

/-- Store the state of a transaction. -/
def store (world : World) (id : Nat) (transaction : Transaction) : World :=
  { world with transactions := Function.update world.transactions id (some transaction) }

/--
A transaction that is between two calls, once the reply to its last read is
collected.  With its RPC client it gets as far only if the read has no value.
-/
def ready (world : World) (id : Nat) : Except Halt Transaction :=
  match world.transactions id with
  | none => .error .disabled
  | some transaction =>
      match transaction.stage with
      | .active => .ok transaction
      | .reading rid key node =>
          match world.server.replies rid with
          | some (.read value status) =>
              .ok
                { transaction with
                  readNodes := insert node transaction.readNodes
                  returned :=
                    transaction.returned ++ [(key, if status then some value else none)]
                  stage := .active }
          | _ => .error .disabled
      | _ => .error .disabled

/-- A transaction in `commit` or `abort`. -/
def finishing (world : World) (id : Nat) : Except Halt Transaction :=
  match world.transactions id with
  | none => .error .disabled
  | some transaction => .ok transaction

/-- Take a step. -/
def step (getNode : Nat → Nat) (world : World) : Move → Except Halt World
  | .start process tid startTs =>
      .ok
        { world with
          curIds := Function.update world.curIds process
            (genTransactionID (world.curIds process)).2
          transactions := Function.update world.transactions world.begun
            (some (.new tid startTs))
          begun := world.begun + 1 }
  | .read id key event => do
      let transaction ← world.ready id
      match transaction.pendWrites key, world.server.readEvents event with
      | some value, _ =>
          return world.store id
            { transaction with returned := transaction.returned ++ [(key, some value)] }
      | none, some _ => .error .disabled
      | none, none => do
          let world ← world.serve getNode id event false
            (.read transaction.tid transaction.startTs key)
          return world.store id
            { transaction with stage := .reading world.sent key (getNode key) }
  | .write id key value => do
      let transaction ← world.ready id
      let world ← world.serve getNode id 0 false (.write transaction.tid key value)
      return world.store id
        { transaction with
          pendWrites := Function.update transaction.pendWrites key (some value)
          writeNodes := insert (getNode key) transaction.writeNodes }
  | .finish id committing => do
      let transaction ← world.ready id
      return world.store id
        { transaction with stage := .phaseOne committing transaction.writeNodes true }
  | .phaseOne id unset => do
      let transaction ← world.finishing id
      match transaction.stage with
      | .phaseOne committing remNodes vote =>
          if remNodes = ∅ then
            return world.store id
              { transaction with
                stage := .phaseTwo committing (committing && vote) transaction.nodes }
          else do
            let world ← world.serve getNode id 0 unset
              (.p1c transaction.tid transaction.startTs transaction.startTs
                transaction.readNodes transaction.writeNodes)
            match world.server.replies world.sent with
            | some (.p1c nodes vote') =>
                return world.store id
                  { transaction with
                    stage := .phaseOne committing (remNodes \ nodes) (vote && vote') }
            | _ => .error .disabled
      | _ => .error .disabled
  | .phaseTwo id => do
      let transaction ← world.finishing id
      match transaction.stage with
      | .phaseTwo committing vote remNodes =>
          if remNodes = ∅ then
            return world.store id { transaction with stage := .ended committing vote }
          else do
            let world ← world.serve getNode id 0 false (.p2c transaction.tid vote)
            match world.server.replies world.sent with
            | some (.p2c nodes) =>
                return world.store id
                  { transaction with stage := .phaseTwo committing vote (remNodes \ nodes) }
            | _ => .error .disabled
      | _ => .error .disabled

end World

end Mvtx.Cluster
