import Mvtx.Lock.Manager

/-!
# SimpleTServer

The server takes up a request, makes an event of it and runs the event; the
handling of a request is one atomic step here, with the events which `freeze`
and `unlock` run inside it.  A request is known by its `rid` and a read event
by its address, under which the lock manager keeps it.

What the RPC server has sent is the map from requests to replies.  A pointer
of a reply that has not been set is a null pointer, and `unset` is what a flag
of a reply happens to be that has not been set.
-/

namespace Mvtx.Server

open Lib Lock

/-- A request with its arguments. -/
inductive Request where
  /-- `TREAD`. -/
  | read (tid startTs key : Nat)
  /-- `TWRITE`. -/
  | write (tid key : Nat) (value : String)
  /-- `TP1C`. -/
  | p1c (tid startTs commitTs : Nat) (readNodes writeNodes : Finset Nat)
  /-- `TP2C`. -/
  | p2c (tid : Nat) (vote : Bool)
  deriving DecidableEq

/-- The transaction of a request. -/
def Request.tid : Request → Nat
  | .read tid _ _ | .write tid _ _ | .p1c tid _ _ _ _ | .p2c tid _ => tid

/-- What is sent back. -/
inductive Reply where
  | read (value : String) (status : Bool)
  | write (status : Bool)
  | p1c (nodes : Finset Nat) (vote : Bool)
  | p2c (nodes : Finset Nat)
  deriving DecidableEq

/-- Event for reads, with the arguments that its handler rewrites. -/
structure ReadEvent where
  rid : Nat
  tid : Nat
  startTs : Nat
  key : Nat
  phase : Nat
  deriving DecidableEq, Repr

/-- An event that `getEvent` returns. -/
inductive ServerEvent where
  | read (event : Nat)
  | write (rid tid key : Nat) (value : String)
  | p1c (rid tid startTs commitTs : Nat) (readNodes writeNodes nodes : Finset Nat)
  | p2c (rid tid : Nat) (vote : Bool) (nodes : Finset Nat)

/-- The state of the server. -/
structure SimpleTServer where
  /-- The nodes that the server serves. -/
  nodes : Finset Nat
  lockManager : AVLTreeLockManager
  /-- The versions of every key. -/
  store : Nat → Option (Nat → Option String)
  pendWrites : Nat → Option (List (Nat × String))
  rdyToCommit : Nat → Option Nat
  tidToNodes : Nat → Option (Finset Nat)
  tidToWriteNodes : Nat → Option (Finset Nat)
  /-- Whether `_tid_mutex` is held. -/
  tidMutex : Bool
  /-- Whether `_tid_write_mutex` is held. -/
  tidWriteMutex : Bool
  /-- The read events, none of which is ever deleted. -/
  readEvents : Nat → Option ReadEvent
  /-- The replies that the RPC server has sent. -/
  replies : Nat → Option Reply

namespace SimpleTServer

/-- `SimpleTServer()`. -/
def initial : SimpleTServer where
  nodes := {0}
  lockManager := .empty
  store := fun _ => none
  pendWrites := fun _ => none
  rdyToCommit := fun _ => none
  tidToNodes := fun _ => none
  tidToWriteNodes := fun _ => none
  tidMutex := false
  tidWriteMutex := false
  readEvents := fun _ => none
  replies := fun _ => none

/-! ## The store and the pending writes -/

/-- The version of a key at a timestamp. -/
def get (server : SimpleTServer) (key ts : Nat) : Option String :=
  if ts = 0 then some "0"
  else
    match server.store key with
    | none => none
    | some versions => versions ts

/-- Write a version of a key. -/
def set (server : SimpleTServer) (key ts : Nat) (value : String) : SimpleTServer :=
  let versions := (server.store key).getD fun _ => none
  { server with
    store := Function.update server.store key
      (some (Function.update versions ts (some value))) }

/-- Add a write to the pending writes of a transaction. -/
def add (server : SimpleTServer) (tid key : Nat) (value : String) : SimpleTServer :=
  { server with
    pendWrites := Function.update server.pendWrites tid
      (some ((server.pendWrites tid).getD [] ++ [(key, value)])) }

/-- The keys of the pending writes of a transaction, in the order of the writes. -/
def getKeys (server : SimpleTServer) (tid : Nat) : List Nat :=
  match server.pendWrites tid with
  | none => []
  | some writes => writes.map (·.1)

/-- Remember the commit timestamp of a transaction. -/
def prepare (server : SimpleTServer) (tid ts : Nat) : SimpleTServer :=
  { server with rdyToCommit := Function.update server.rdyToCommit tid (some ts) }

/-- Write versions of keys at a timestamp, one after another. -/
def setAll (ts : Nat) : List (Nat × String) → SimpleTServer → SimpleTServer
  | [], server => server
  | (key, value) :: writes, server => setAll ts writes (server.set key ts value)

/-- Install the pending writes of a transaction, or drop them. -/
def finalize (server : SimpleTServer) (tid : Nat) (success : Bool) : SimpleTServer :=
  match server.rdyToCommit tid with
  | none => server
  | some ts =>
      match server.pendWrites tid with
      | none => { server with rdyToCommit := Function.update server.rdyToCommit tid none }
      | some writes =>
          let server := if success then server.setAll ts writes else server
          { server with
            pendWrites := Function.update server.pendWrites tid none
            rdyToCommit := Function.update server.rdyToCommit tid none }

/-- Send a reply; the RPC server exits if it has sent one before. -/
def sendReply (server : SimpleTServer) (rid : Nat) (reply : Reply) : Exec SimpleTServer :=
  match server.replies rid with
  | some _ => .error .exit
  | none =>
      .ok { server with replies := Function.update server.replies rid (some reply) }

/-! ## Running events -/

/-- Store a read event. -/
def setEvent (server : SimpleTServer) (event : Nat) (state : ReadEvent) : SimpleTServer :=
  { server with readEvents := Function.update server.readEvents event (some state) }

/-- Phase 1 of a read: get the value and send the reply. -/
def answerRead (server : SimpleTServer) (event : Nat) (state : ReadEvent) :
    Exec SimpleTServer := do
  let server := server.setEvent event { state with phase := 2 }
  let value ← deref (server.get state.key (uintPred state.startTs))
  server.sendReply state.rid (.read value true)

/-- `ReadEvent::run`. -/
def runRead (server : SimpleTServer) (event : Nat) : Exec SimpleTServer := do
  let state ← deref (server.readEvents event)
  match state.phase with
  | 0 => do
      let (lockManager, res, startTs) ←
        server.lockManager.tryBackwardLock state.key state.tid (uintPred state.startTs) true
          event state.startTs
      let server := { server with lockManager := lockManager }
      let state := { state with startTs := startTs }
      if res then
        server.answerRead event { state with phase := 1 }
      else
        return server.setEvent event state
  | 1 => server.answerRead event state
  | _ => .error .exit

/-- Run the events that `freeze` or `unlock` has collected. -/
def runEvents : List Nat → SimpleTServer → Exec SimpleTServer
  | [], server => .ok server
  | event :: events, server => do
      let server ← server.runRead event
      runEvents events server

/-- Lock the keys that a transaction has written, until one refuses. -/
def lockKeys (tid startTs commitTs : Nat) :
    List Nat → AVLTreeLockManager → Exec (AVLTreeLockManager × Bool)
  | [], manager => .ok (manager, true)
  | key :: keys, manager => do
      let (manager, res) ← manager.tryLock key tid startTs commitTs false
      if res then lockKeys tid startTs commitTs keys manager else return (manager, false)

/-- `P1CEvent::run`. -/
def runP1C (server : SimpleTServer) (rid tid startTs commitTs : Nat)
    (readNodes writeNodes nodes : Finset Nat) : Exec SimpleTServer := do
  let (lockManager, res) ←
    lockKeys tid startTs commitTs (server.getKeys tid) server.lockManager
  let server := { server with lockManager := lockManager }
  (server.prepare tid commitTs).sendReply rid (.p1c (nodes ∪ readNodes ∪ writeNodes) res)

/-- `P2CEvent::run`. -/
def runP2C (server : SimpleTServer) (rid tid : Nat) (vote : Bool) (nodes : Finset Nat) :
    Exec SimpleTServer := do
  let (lockManager, events) ←
    if vote then server.lockManager.freeze tid else server.lockManager.unlock tid
  let server ← runEvents (ascending events) { server with lockManager := lockManager }
  (server.finalize tid vote).sendReply rid (.p2c nodes)

/-- Run an event. -/
def run (server : SimpleTServer) : ServerEvent → Exec SimpleTServer
  | .read event => server.runRead event
  | .write rid tid key value => (server.add tid key value).sendReply rid (.write true)
  | .p1c rid tid startTs commitTs readNodes writeNodes nodes =>
      server.runP1C rid tid startTs commitTs readNodes writeNodes nodes
  | .p2c rid tid vote nodes => server.runP2C rid tid vote nodes

/-! ## Taking up requests -/

/-- Lock a mutex. -/
def lockMutex (held : Bool) : Exec Unit :=
  if held then .error .selfDeadlock else .ok ()

/-- Add a node to those of a transaction. -/
def insertNode (map : Nat → Option (Finset Nat)) (tid node : Nat) :
    Nat → Option (Finset Nat) :=
  Function.update map tid (some (insert node ((map tid).getD ∅)))

/--
What `getEvent` does with a request: it makes an event, or it turns the
request down and goes on.  In the latter case the mutexes that it has locked
stay locked.
-/
def getEvent (getNode : Nat → Nat) (server : SimpleTServer) (rid event : Nat) (unset : Bool) :
    Request → Exec (SimpleTServer × Option ServerEvent)
  | .read tid startTs key =>
      if getNode key ∈ server.nodes then do
        lockMutex server.tidMutex
        let server :=
          { server with tidToNodes := insertNode server.tidToNodes tid (getNode key) }
        let state : ReadEvent :=
          { rid := rid, tid := tid, startTs := startTs, key := key, phase := 0 }
        return (server.setEvent event state, some (.read event))
      else
        -- The reply is made from the value, which has not been set.
        .error .nullDereference
  | .write tid key value =>
      if getNode key ∈ server.nodes then do
        lockMutex server.tidMutex
        lockMutex server.tidWriteMutex
        let server :=
          { server with
            tidToNodes := insertNode server.tidToNodes tid (getNode key)
            tidToWriteNodes := insertNode server.tidToWriteNodes tid (getNode key) }
        return (server, some (.write rid tid key value))
      else do
        let server ← server.sendReply rid (.write false)
        return (server, none)
  | .p1c tid startTs commitTs readNodes writeNodes => do
      lockMutex server.tidWriteMutex
      match server.tidToWriteNodes tid with
      | none => do
          let server ← { server with tidWriteMutex := true }.sendReply rid (.p1c ∅ unset)
          return (server, none)
      | some nodes =>
          let server :=
            { server with
              tidToWriteNodes := Function.update server.tidToWriteNodes tid none }
          return (server, some (.p1c rid tid startTs commitTs readNodes writeNodes nodes))
  | .p2c tid vote => do
      lockMutex server.tidMutex
      match server.tidToNodes tid with
      | none => do
          let server ← { server with tidMutex := true }.sendReply rid (.p2c ∅)
          return (server, none)
      | some nodes =>
          let server :=
            { server with tidToNodes := Function.update server.tidToNodes tid none }
          return (server, some (.p2c rid tid vote nodes))

/-- Take up a request and run the event that is made of it. -/
def handle (getNode : Nat → Nat) (server : SimpleTServer) (rid event : Nat) (unset : Bool)
    (request : Request) : Exec SimpleTServer := do
  let (server, made) ← server.getEvent getNode rid event unset request
  match made with
  | none => return server
  | some made => server.run made

end SimpleTServer

end Mvtx.Server
