import Mvtx.Client.Coordinator
import Mvtx.Lib.Run

/-!
# Clients and a server

Any number of Coordinators run in any number of client processes and share
one server.  A step is one call of a Coordinator, one turn of its loops, the
arrival of one reply, or the handling of one request by the server.  Requests
are handled in any order, each of them once.

A message is known by a number, under which the server knows its request.  A
process finds the reply to an asynchronous message by its tag.  A reply goes
straight to its Coordinator here; that the RPC client of the process faults at
the answer to a read is the subject of `Rpc`.
-/

namespace Mvtx.Cluster

open Lib Server Client

/-- `SimpleKeyMapper::getNode`. -/
def getNode (_ : Nat) : Nat := 0

/-- `genTransactionID`: the ID and the next state of the generator. -/
def genTransactionID (curId : Nat) : Nat × Nat := (curId, uintSucc curId)

/-- Why a step is not taken. -/
inductive Halt where
  /-- It is not possible in this state. -/
  | disabled
  /-- The server faults, or the client where its RPCs are modelled. -/
  | fault (fault : Fault)
  deriving DecidableEq

/-- A client process. -/
structure Process where
  client : SimpleResolutionClient
  /-- The state of the generator of transaction IDs. -/
  curId : Nat

/-- A message whose reply has not been collected. -/
structure Call where
  coordinator : Nat
  tag : Option Nat
  deriving DecidableEq

/-- The clients, the server and the messages between them. -/
structure System where
  server : SimpleTServer
  processes : Nat → Process
  /-- The Coordinators, each with its process. -/
  coordinators : Nat → Option (Nat × Coordinator)
  /-- How many Coordinators have been created. -/
  created : Nat
  calls : Nat → Option Call
  /-- The requests that the server has not taken up. -/
  requests : Nat → Option Request
  /-- How many messages have been sent. -/
  sent : Nat

/-- A step. -/
inductive Label where
  /-- A Coordinator is created in a process. -/
  | start (process tid startTs : Nat)
  | read (coordinator key : Nat)
  | write (coordinator key : Nat) (value : String)
  | commit (coordinator : Nat)
  | abort (coordinator : Nat)
  /-- A Coordinator goes on from the head of a loop. -/
  | turn (coordinator : Nat)
  /-- A Coordinator collects the reply to a message. -/
  | receive (coordinator rid : Nat)
  /-- The server handles a request; a read gets an event at some address. -/
  | handle (rid event : Nat) (unset : Bool)
  deriving DecidableEq

namespace System

/-- The first state, with some server. -/
def first (server : SimpleTServer) : System where
  server := server
  processes := fun _ => { client := .initial, curId := 0 }
  coordinators := fun _ => none
  created := 0
  calls := fun _ => none
  requests := fun _ => none
  sent := 0

/-- Put the messages of a Coordinator on their way. -/
def send (coordinator : Nat) : List Message → System → System
  | [], system => system
  | message :: messages, system =>
      -- A request has a number other than zero.
      let rid := system.sent + 1
      send coordinator messages
        { system with
          calls := Function.update system.calls rid (some ⟨coordinator, message.tag⟩)
          requests := Function.update system.requests rid (some message.request)
          sent := rid }

/-- Store the state of a Coordinator and of the client of its process. -/
def setCoordinator (system : System) (id process : Nat) (client : SimpleResolutionClient)
    (coordinator : Coordinator) : System :=
  { system with
    processes := Function.update system.processes process
      { system.processes process with client := client }
    coordinators := Function.update system.coordinators id (some (process, coordinator)) }

/-- A Coordinator that is between two calls, with its process. -/
def readyCoordinator (system : System) (id : Nat) : Except Halt (Nat × Coordinator) :=
  match system.coordinators id with
  | none => .error .disabled
  | some (process, coordinator) =>
      match coordinator.control with
      | .ready => .ok (process, coordinator)
      | _ => .error .disabled

/-- Whether a Coordinator of a process waits for the reply to a message. -/
def awaits (system : System) (process : Nat) (id : Nat) (coordinator : Coordinator)
    (rid : Nat) : Bool :=
  match system.calls rid with
  | none => false
  | some call =>
      match call.tag with
      | none => call.coordinator = id ∧ coordinator.awaits = some none
      | some tag =>
          (system.coordinators call.coordinator).map (·.1) = some process ∧
            coordinator.awaits = some (some tag)

/-- Take a step. -/
def step (getNode : Nat → Nat) (system : System) : Label → Except Halt System
  | .start process tid startTs =>
      let curId := (genTransactionID (system.processes process).curId).2
      .ok
        { system with
          processes := Function.update system.processes process
            { system.processes process with curId := curId }
          coordinators := Function.update system.coordinators system.created
            (some (process, .new tid startTs))
          created := system.created + 1 }
  | .read id key => do
      let (process, coordinator) ← system.readyCoordinator id
      let (client, coordinator, messages) :=
        coordinator.read getNode (system.processes process).client key
      return send id messages (system.setCoordinator id process client coordinator)
  | .write id key value => do
      let (process, coordinator) ← system.readyCoordinator id
      let (client, coordinator, messages) :=
        coordinator.write getNode (system.processes process).client key value
      return send id messages (system.setCoordinator id process client coordinator)
  | .commit id => do
      let (process, coordinator) ← system.readyCoordinator id
      return system.setCoordinator id process (system.processes process).client
        (coordinator.finish true)
  | .abort id => do
      let (process, coordinator) ← system.readyCoordinator id
      return system.setCoordinator id process (system.processes process).client
        (coordinator.finish false)
  | .turn id =>
      match system.coordinators id with
      | none => .error .disabled
      | some (process, coordinator) =>
          match coordinator.turn (system.processes process).client with
          | none => .error .disabled
          | some (client, coordinator, messages) =>
              .ok (send id messages (system.setCoordinator id process client coordinator))
  | .receive id rid =>
      match system.coordinators id, system.server.replies rid with
      | some (process, coordinator), some reply =>
          if system.awaits process id coordinator rid then
            match coordinator.receive (system.processes process).client reply with
            | none => .error .disabled
            | some (client, coordinator) =>
                .ok
                  { system.setCoordinator id process client coordinator with
                    calls := Function.update system.calls rid none }
          else .error .disabled
      | _, _ => .error .disabled
  | .handle rid event unset =>
      match system.requests rid, system.server.readEvents event with
      | some request, none =>
          match system.server.handle getNode rid event unset request with
          | .error fault => .error (.fault fault)
          | .ok server =>
              .ok
                { system with
                  server := server
                  requests := Function.update system.requests rid none }
      | _, _ => .error .disabled

end System

end Mvtx.Cluster
