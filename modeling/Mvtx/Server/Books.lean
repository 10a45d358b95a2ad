import Mvtx.Server.Handle
import Mvtx.Server.Versions

/-!
# Where versions come from

The server keeps the writes that it has accepted until their transaction ends, and
installs them then.  So what it keeps and what it has stored are writes among the
requests that it has handled, whoever has sent them in which order.
-/

namespace Mvtx.Server

open Lib SimpleTServer

/-- The key that a transaction writes, if the server accepts the write. -/
def acceptedKey (getNode : Nat → Nat) (nodes : Finset Nat) (tid : Nat) : Request → Option Nat
  | .write owner key _ => if owner = tid ∧ getNode key ∈ nodes then some key else none
  | .read _ _ _ | .p1c _ _ _ _ _ | .p2c _ _ => none

/-- The keys of the writes of a transaction that the server accepts, in their order. -/
def acceptedKeys (getNode : Nat → Nat) (nodes : Finset Nat) (tid : Nat)
    (requests : List Request) : List Nat :=
  requests.filterMap (acceptedKey getNode nodes tid)

/-- What the server keeps of the writes of transactions, and what it has stored. -/
structure Booked (getNode : Nat → Nat) (requests : List Request) (server : SimpleTServer) :
    Prop where
  keys : ∀ tid, (∀ vote, .p2c tid vote ∉ requests) →
    server.getKeys tid = acceptedKeys getNode server.nodes tid requests
  taken : ∀ tid, server.tidToWriteNodes tid ≠ none →
    acceptedKeys getNode server.nodes tid requests ≠ []
  pending : ∀ tid key value, (key, value) ∈ (server.pendWrites tid).getD [] →
    .write tid key value ∈ requests
  stored : ∀ key ts value, server.version key ts = some value →
    ∃ tid, .write tid key value ∈ requests ∧ .p2c tid true ∈ requests

variable {getNode : Nat → Nat} {nodes : Finset Nat} {requests : List Request}
  {server server' : SimpleTServer} {rid event tid : Nat} {unset : Bool} {request : Request}

theorem acceptedKeys_append (request : Request) :
    acceptedKeys getNode nodes tid (requests ++ [request]) =
      acceptedKeys getNode nodes tid requests ++
        (acceptedKey getNode nodes tid request).toList := by
  cases accepted : acceptedKey getNode nodes tid request <;> simp [acceptedKeys, accepted]

theorem acceptedKeys_ne_nil (kept : acceptedKeys getNode nodes tid requests ≠ [])
    (request : Request) : acceptedKeys getNode nodes tid (requests ++ [request]) ≠ [] := by
  simp [acceptedKeys_append, kept]

/-- The last write of a key is a write of it. -/
theorem mem_of_lastWrite {writes : List (Nat × String)} {key : Nat} {value : String}
    (last : lastWrite writes key = some value) : (key, value) ∈ writes := by
  induction writes using List.reverseRecOn with
  | nil => simp [lastWrite] at last
  | append_singleton writes write ih =>
      rw [lastWrite_append] at last
      by_cases same : key = write.1
      · subst same
        obtain rfl : write.2 = value := by simpa using last
        simp
      · rw [Function.update_of_ne same] at last
        exact List.mem_append_left _ (ih last)

namespace Booked

theorem initial (nodes : Finset Nat) :
    Booked getNode [] { SimpleTServer.initial with nodes := nodes } where
  keys := by simp [SimpleTServer.initial, getKeys, acceptedKeys]
  taken := by simp [SimpleTServer.initial]
  pending := by simp [SimpleTServer.initial]
  stored := by simp [SimpleTServer.initial, version]

/-- A request that is no accepted write, and leaves the writes alone. -/
theorem keep (booked : Booked getNode requests server) (request : Request)
    (refused : ∀ tid, acceptedKey getNode server.nodes tid request = none)
    (nodes : server'.nodes = server.nodes)
    (tidToWriteNodes : ∀ tid, server'.tidToWriteNodes tid ≠ none →
      server.tidToWriteNodes tid ≠ none)
    (pendWrites : server'.pendWrites = server.pendWrites) (store : server'.store = server.store) :
    Booked getNode (requests ++ [request]) server' where
  keys := by
    intro tid open'
    rw [nodes, acceptedKeys_append, refused, Option.toList_none, List.append_nil,
      ← booked.keys tid fun vote member => open' vote (List.mem_append_left _ member)]
    simp [getKeys, pendWrites]
  taken := by
    intro tid taken
    rw [nodes]
    exact acceptedKeys_ne_nil (booked.taken tid (tidToWriteNodes tid taken)) request
  pending := by
    intro tid key value member
    rw [pendWrites] at member
    exact List.mem_append_left _ (booked.pending tid key value member)
  stored := by
    intro key ts value found
    obtain ⟨tid, written, committed⟩ := booked.stored key ts value (by
      rwa [version, store] at found)
    exact ⟨tid, List.mem_append_left _ written, List.mem_append_left _ committed⟩

/-- A write that the server accepts is kept until its transaction ends. -/
theorem write {key : Nat} {value : String} (booked : Booked getNode requests server)
    (served : getNode key ∈ server.nodes) (nodes : server'.nodes = server.nodes)
    (tidToWriteNodes : ∀ owner, owner ≠ tid →
      server'.tidToWriteNodes owner = server.tidToWriteNodes owner)
    (pendWrites : server'.pendWrites = (server.add tid key value).pendWrites)
    (store : server'.store = server.store) :
    Booked getNode (requests ++ [.write tid key value]) server' := by
  have pending : ∀ owner, (server'.pendWrites owner).getD [] =
      (server.pendWrites owner).getD [] ++ if owner = tid then [(key, value)] else [] := by
    intro owner
    rw [pendWrites]
    by_cases same : owner = tid
    · subst same
      simp [add]
    · simp [add, same]
  have keys : ∀ (server : SimpleTServer) owner,
      server.getKeys owner = ((server.pendWrites owner).getD []).map (·.1) := by
    intro server owner
    cases known : server.pendWrites owner <;> simp [getKeys, known]
  refine
    { keys := fun owner open' => ?_
      taken := fun owner taken => ?_
      pending := fun owner key' value' member => ?_
      stored := fun key' ts value' found => ?_ }
  · rw [nodes, acceptedKeys_append, keys, pending, List.map_append, ← keys,
      booked.keys owner fun vote member => open' vote (List.mem_append_left _ member)]
    refine congrArg _ ?_
    by_cases own : owner = tid
    · subst own
      simp [acceptedKey, served]
    · simp [acceptedKey, own, Ne.symm own]
  · rw [nodes, acceptedKeys_append]
    by_cases own : owner = tid
    · subst own
      simp [acceptedKey, served]
    · rw [tidToWriteNodes owner own] at taken
      exact fun none' => booked.taken owner taken (List.append_eq_nil_iff.1 none').1
  · rw [pending owner] at member
    rcases List.mem_append.1 member with old | new
    · exact List.mem_append_left _ (booked.pending owner key' value' old)
    · split at new
      · next own =>
          obtain ⟨rfl, rfl⟩ := Prod.mk.inj (List.mem_singleton.1 new)
          exact own ▸ List.mem_append_right _ (List.mem_singleton_self _)
      · exact absurd new List.not_mem_nil
  · rw [version, store] at found
    obtain ⟨owner, written, committed⟩ := booked.stored key' ts value' found
    exact ⟨owner, List.mem_append_left _ written, List.mem_append_left _ committed⟩

/-- A transaction that ends has its writes installed if the vote is true. -/
theorem finalize {vote : Bool} (booked : Booked getNode requests server) :
    Booked getNode (requests ++ [.p2c tid vote]) (server.finalize tid vote) := by
  obtain ⟨store, pendWrites, rdyToCommit, same, others, -, -, own⟩ := finalize_eq server tid vote
  have version := fun key ts => version_finalize server tid vote key ts
  rw [same] at version ⊢
  refine
    { keys := fun owner open' => ?_
      taken := fun owner taken => acceptedKeys_ne_nil (booked.taken owner taken) _
      pending := fun owner key value member => ?_
      stored := fun key ts value found => ?_ }
  · have differs : owner ≠ tid := by
      rintro rfl
      exact open' vote (List.mem_append_right _ (List.mem_singleton_self _))
    rw [acceptedKeys_append, acceptedKey, Option.toList_none, List.append_nil]
    exact Eq.trans (by simp [getKeys, others owner differs])
      (booked.keys owner fun vote' member => open' vote' (List.mem_append_left _ member))
  · refine List.mem_append_left _ (booked.pending owner key value ?_)
    have member' : (key, value) ∈ (pendWrites owner).getD [] := member
    by_cases isOwn : owner = tid
    · subst isOwn
      rw [own] at member'
      split at member'
      · exact member'
      · simp at member'
    · rwa [others owner isOwn] at member'
  · rw [version] at found
    have old : server.version key ts = some value →
        ∃ owner, .write owner key value ∈ requests ++ [.p2c tid vote] ∧
          .p2c owner true ∈ requests ++ [.p2c tid vote] := by
      intro found
      obtain ⟨owner, written, committed⟩ := booked.stored key ts value found
      exact ⟨owner, List.mem_append_left _ written, List.mem_append_left _ committed⟩
    split at found
    · next commits =>
        rcases Option.or_eq_some_iff.1 found with last | ⟨-, found⟩
        · refine ⟨tid, List.mem_append_left _ (booked.pending tid key value
            (mem_of_lastWrite last)), List.mem_append_right _ ?_⟩
          rw [commits.1]
          exact List.mem_singleton_self _
        · exact old found
    · exact old found

/-- Whatever request is handled, the books stay in order. -/
theorem handled (booked : Booked getNode requests server)
    (handled : Handled getNode server rid event unset request server') :
    Booked getNode (requests ++ [request]) server' := by
  cases handled with
  | read served unlocked ran =>
      have reads := readsOnly_runRead ran
      refine booked.keep _ (fun _ => rfl) reads.nodes (fun tid taken => ?_) reads.pendWrites
        reads.store
      rwa [reads.tidToWriteNodes] at taken
  | write served unlocked fresh =>
      exact booked.write served rfl (fun owner differs => by
        simp [SimpleTServer.replied, add, insertNode, differs]) rfl rfl
  | writeRefused refused fresh =>
      exact booked.keep _ (fun tid => by simp [acceptedKey, refused]) rfl (fun _ taken => taken)
        rfl rfl
  | @p1c tid _ _ _ _ nodes _ _ known unlocked locked fresh =>
      refine booked.keep _ (fun _ => rfl) rfl (fun owner taken => ?_) rfl rfl
      by_cases own : owner = tid
      · subst own
        simp [known]
      · simpa [SimpleTServer.replied, prepare, own] using taken
  | p1cRefused refused unlocked fresh =>
      exact booked.keep _ (fun _ => rfl) rfl (fun _ taken => taken) rfl rfl
  | @p2c tid vote nodes manager events server₁ known unlocked released ran fresh =>
      have reads := readsOnly_runEvents ran
      have before : Booked getNode requests server₁ :=
        { keys := fun owner open' => by
            rw [reads.nodes]
            exact Eq.trans (by simp [getKeys, reads.pendWrites]) (booked.keys owner open')
          taken := fun owner taken => by
            rw [reads.tidToWriteNodes] at taken
            rw [reads.nodes]
            exact booked.taken owner taken
          pending := fun owner key value member => by
            rw [reads.pendWrites] at member
            exact booked.pending owner key value member
          stored := fun key ts value found => by
            rw [version, reads.store] at found
            exact booked.stored key ts value found }
      exact ⟨before.finalize.keys, before.finalize.taken, before.finalize.pending,
        before.finalize.stored⟩
  | p2cRefused refused unlocked fresh =>
      refine
        { keys := fun owner open' => ?_
          taken := fun owner taken => acceptedKeys_ne_nil (booked.taken owner taken) _
          pending := fun owner key value member =>
            List.mem_append_left _ (booked.pending owner key value member)
          stored := fun key ts value found => ?_ }
      · rw [acceptedKeys_append, acceptedKey, Option.toList_none, List.append_nil]
        exact booked.keys owner fun vote member => open' vote (List.mem_append_left _ member)
      · obtain ⟨owner, written, committed⟩ := booked.stored key ts value found
        exact ⟨owner, List.mem_append_left _ written, List.mem_append_left _ committed⟩

end Booked

end Mvtx.Server
