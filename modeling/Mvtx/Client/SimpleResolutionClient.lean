import Mathlib.Data.List.Sort
import Mvtx.Lib.Ascending
import Mvtx.Lock.Basic

/-!
# SimpleResolutionClient

The resolution client finds the addresses of nodes and runs the loops of
`request` for `TP1C` and `TP2C`: a round sends a message to every address that
it knows of and collects the replies one by one, until no node is left that no
reply has listed.

`RoundLoop` has the variables of such a loop.  Finding the addresses and
sending the messages of a round is one step here; the mutexes around the parts
of it only keep the threads of one process apart.
-/

namespace Mvtx.Client

open Lib

/-- The conversion of a `uint64_t` to `int` and back. -/
def toInt (x : Nat) : Nat :=
  let low := x % 4294967296
  if low < 2147483648 then low else low + 18446744069414584320

theorem toInt_eq {x : Nat} (small : x < 2147483648) : toInt x = x := by
  unfold toInt
  rw [Nat.mod_eq_of_lt (by omega)]
  exact if_pos small

/-- The state of a resolution client, which the threads of a process share. -/
structure SimpleResolutionClient where
  nodeToAddress : Nat → Option String
  /-- Tag to pass to the RPC client. -/
  tag : Nat

namespace SimpleResolutionClient

/-- `SimpleResolutionClient()`. -/
def initial : SimpleResolutionClient where
  nodeToAddress := fun _ => none
  tag := 135643

/-- Insert an address into a set of addresses, which is kept in order. -/
def insertAddress (address : String) (addresses : List String) : List String :=
  if address ∈ addresses then addresses else addresses.orderedInsert (· ≤ ·) address

/-- Find the addresses of nodes, and remember those that are not known. -/
def findAddresses (client : SimpleResolutionClient) :
    List Nat → List String → SimpleResolutionClient × List String
  | [], addresses => (client, addresses)
  | node :: nodes, addresses =>
      let address := (client.nodeToAddress node).getD "0.0.0.0:10000"
      findAddresses
        { client with
          nodeToAddress := Function.update client.nodeToAddress node (some address) }
        nodes (insertAddress address addresses)

/-- Forget the addresses of nodes. -/
def invalidateAddresses (client : SimpleResolutionClient) (nodes : Finset Nat) :
    SimpleResolutionClient :=
  { client with
    nodeToAddress := fun node => if node ∈ nodes then none else client.nodeToAddress node }

end SimpleResolutionClient

/-- The variables of the loops of `request` for `TP1C` and `TP2C`. -/
structure RoundLoop where
  /-- The nodes that no reply has listed yet. -/
  remNodes : Finset Nat
  addresses : List String
  /-- The addresses from which this round still collects the replies. -/
  awaited : List String
  /-- The tag of the reply that is awaited next. -/
  tag : Nat
  vote : Bool
  /-- How many rounds have been begun. -/
  rounds : Nat

namespace RoundLoop

/-- The loop before its first round. -/
def start (nodes : Finset Nat) : RoundLoop where
  remNodes := nodes
  addresses := []
  awaited := []
  tag := 0
  vote := true
  rounds := 0

/-- Number the messages to some addresses. -/
def number : Nat → List String → List (String × Nat)
  | _, [] => []
  | tag, address :: addresses => (address, tag) :: number (uintSucc tag) addresses

/-- The tag after some messages have been numbered. -/
def nextTag : Nat → List String → Nat
  | tag, [] => tag
  | tag, _ :: addresses => nextTag (uintSucc tag) addresses

/-- Steps one and two of a round: the messages to send, each with its tag. -/
def sendRound (client : SimpleResolutionClient) (loop : RoundLoop) :
    SimpleResolutionClient × RoundLoop × List (String × Nat) :=
  let (client, addresses) :=
    client.findAddresses (ascending loop.remNodes) loop.addresses
  ({ client with tag := nextTag client.tag addresses },
    { loop with
      addresses := addresses
      awaited := addresses
      tag := toInt client.tag
      rounds := loop.rounds + 1 },
    number client.tag addresses)

/-- Step three of a round, for one reply; step four follows the last one. -/
def collect (client : SimpleResolutionClient) (loop : RoundLoop) (nodes : Finset Nat)
    (vote : Bool) : SimpleResolutionClient × RoundLoop :=
  let loop :=
    { loop with
      remNodes := loop.remNodes \ nodes
      awaited := loop.awaited.tail
      tag := toInt (loop.tag + 1)
      vote := loop.vote && vote }
  (if loop.awaited = [] then client.invalidateAddresses loop.remNodes else client, loop)

end RoundLoop

end Mvtx.Client
