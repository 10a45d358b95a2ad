import Mvtx.Client.SimpleResolutionClient
import Mvtx.Server.SimpleTServer

/-!
# Coordinator

A Coordinator runs one transaction.  Between two calls of the program it is
`ready`; within a call it has sent a message and waits for the reply, or it
stands at the head of one of the loops of `request`.  `turn` is what it does
at the head of a loop, and `receive` what it does with a reply.
-/

namespace Mvtx.Client

open Lib Server

/-- Where a Coordinator is. -/
inductive Control where
  /-- Between two calls. -/
  | ready
  /-- In `read`, with a message to a node. -/
  | reading (key node : Nat)
  /-- In `write`, with a message to a node. -/
  | writing (node : Nat)
  /-- In the loop for `TP1C`, of `commit` or of `abort`. -/
  | phaseOne (committing : Bool) (loop : RoundLoop)
  /-- In the loop for `TP2C`, with the vote to send. -/
  | phaseTwo (committing vote : Bool) (loop : RoundLoop)
  /-- `commit` or `abort` has returned. -/
  | ended (committing vote : Bool)

/-- The state of a Coordinator. -/
structure Coordinator where
  tid : Nat
  startTs : Nat
  readNodes : Finset Nat
  writeNodes : Finset Nat
  pendWrites : Nat → Option String
  control : Control
  /-- What `read` has returned, in order; nothing stands for an unset value. -/
  returned : List (Nat × Option String)

/-- A message to an address; asynchronous ones have a tag. -/
structure Message where
  address : String
  tag : Option Nat
  request : Request

namespace Coordinator

/-- `Coordinator()`. -/
def new (tid startTs : Nat) : Coordinator where
  tid := tid
  startTs := startTs
  readNodes := ∅
  writeNodes := ∅
  pendWrites := fun _ => none
  control := .ready
  returned := []

/-- The message of a synchronous request to a node. -/
def sendSync (client : SimpleResolutionClient) (node : Nat) (request : Request) :
    SimpleResolutionClient × List Message :=
  let (client, addresses) := client.findAddresses [node] []
  (client, addresses.take 1 |>.map fun address => ⟨address, none, request⟩)

/-- `read` is called. -/
def read (getNode : Nat → Nat) (client : SimpleResolutionClient) (coordinator : Coordinator)
    (key : Nat) : SimpleResolutionClient × Coordinator × List Message :=
  match coordinator.pendWrites key with
  | some value =>
      (client,
        { coordinator with returned := coordinator.returned ++ [(key, some value)] }, [])
  | none =>
      let (client, messages) :=
        sendSync client (getNode key) (.read coordinator.tid coordinator.startTs key)
      (client, { coordinator with control := .reading key (getNode key) }, messages)

/-- `write` is called. -/
def write (getNode : Nat → Nat) (client : SimpleResolutionClient)
    (coordinator : Coordinator) (key : Nat) (value : String) :
    SimpleResolutionClient × Coordinator × List Message :=
  let (client, messages) :=
    sendSync client (getNode key) (.write coordinator.tid key value)
  (client,
    { coordinator with
      pendWrites := Function.update coordinator.pendWrites key (some value)
      control := .writing (getNode key) }, messages)

/-- `commit` or `abort` is called. -/
def finish (coordinator : Coordinator) (committing : Bool) : Coordinator :=
  { coordinator with control := .phaseOne committing (.start coordinator.writeNodes) }

/-- The arguments of phase one. -/
def p1cRequest (coordinator : Coordinator) : Request :=
  .p1c coordinator.tid coordinator.startTs coordinator.startTs coordinator.readNodes
    coordinator.writeNodes

/-- The head of a loop: another round, or the end of the loop. -/
def turn (client : SimpleResolutionClient) (coordinator : Coordinator) :
    Option (SimpleResolutionClient × Coordinator × List Message) :=
  match coordinator.control with
  | .phaseOne committing loop =>
      if loop.awaited ≠ [] then none
      else if loop.remNodes = ∅ then
        some (client,
          { coordinator with
            control := .phaseTwo committing (committing && loop.vote)
              (.start (coordinator.writeNodes ∪ coordinator.readNodes)) }, [])
      else
        let (client, loop, sent) := loop.sendRound client
        some (client, { coordinator with control := .phaseOne committing loop },
          sent.map fun (address, tag) => ⟨address, some tag, coordinator.p1cRequest⟩)
  | .phaseTwo committing vote loop =>
      if loop.awaited ≠ [] then none
      else if loop.remNodes = ∅ then
        some (client, { coordinator with control := .ended committing vote }, [])
      else
        let (client, loop, sent) := loop.sendRound client
        some (client, { coordinator with control := .phaseTwo committing vote loop },
          sent.map fun (address, tag) => ⟨address, some tag, .p2c coordinator.tid vote⟩)
  | _ => none

/-- What a synchronous request does when it has been turned down, before it returns. -/
def turnedDown (client : SimpleResolutionClient) (node : Nat) : SimpleResolutionClient :=
  ((client.invalidateAddresses {node}).findAddresses [node] []).1

/--
The reply that the Coordinator waits for arrives.  A read with a value gets here
only past the unset pointer that its RPC client follows.
-/
def receive (client : SimpleResolutionClient) (coordinator : Coordinator) (reply : Reply) :
    Option (SimpleResolutionClient × Coordinator) :=
  match coordinator.control, reply with
  | .reading key node, .read value status =>
      some (if status then client else turnedDown client node,
        { coordinator with
          readNodes := insert node coordinator.readNodes
          returned := coordinator.returned ++ [(key, if status then some value else none)]
          control := .ready })
  | .writing node, .write status =>
      some (if status then client else turnedDown client node,
        { coordinator with
          writeNodes := insert node coordinator.writeNodes
          control := .ready })
  | .phaseOne committing loop, .p1c nodes vote =>
      if loop.awaited = [] then none
      else
        let (client, loop) := loop.collect client nodes vote
        some (client, { coordinator with control := .phaseOne committing loop })
  | .phaseTwo committing vote loop, .p2c nodes =>
      if loop.awaited = [] then none
      else
        let (client, loop) := loop.collect client nodes true
        some (client, { coordinator with control := .phaseTwo committing vote loop })
  | _, _ => none

/-- What a Coordinator waits for: nothing, or a message with or without a tag. -/
def awaits (coordinator : Coordinator) : Option (Option Nat) :=
  match coordinator.control with
  | .reading _ _ | .writing _ => some none
  | .phaseOne _ loop | .phaseTwo _ _ loop =>
      if loop.awaited = [] then none else some (some loop.tag)
  | .ready | .ended _ _ => none

/-- The loop of a Coordinator in `commit` or `abort`. -/
def loop (coordinator : Coordinator) : Option RoundLoop :=
  match coordinator.control with
  | .phaseOne _ loop | .phaseTwo _ _ loop => some loop
  | .ready | .reading _ _ | .writing _ | .ended _ _ => none

end Coordinator

end Mvtx.Client
