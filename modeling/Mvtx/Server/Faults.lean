import Mvtx.Server.Handle

/-!
# How handling a request faults

`Faulted` is the counterpart of `Handled`: it has one case for every way in
which the handling of a request ends in a fault.
-/

namespace Mvtx.Server

open Lib Lock SimpleTServer

/-- The ways in which the handling of a request ends in a fault. -/
inductive Faulted (getNode : Nat → Nat) (server : SimpleTServer) (rid event : Nat) :
    Request → Fault → Prop where
  /-- A mutex has been left locked. -/
  | deadlock
      {request : Request}
      (held : server.tidMutex = true ∨ server.tidWriteMutex = true) :
      Faulted getNode server rid event request .selfDeadlock
  /-- The request has a reply. -/
  | replied
      {request : Request}
      (sent : server.replies rid ≠ none) :
      Faulted getNode server rid event request .exit
  | readRefused
      {tid startTs key : Nat}
      (refused : getNode key ∉ server.nodes) :
      Faulted getNode server rid event (.read tid startTs key) .nullDereference
  | read
      {tid startTs key : Nat}
      {fault : Fault}
      (served : getNode key ∈ server.nodes)
      (ran : (server.takenUp getNode rid event tid startTs key).runRead event = .error fault) :
      Faulted getNode server rid event (.read tid startTs key) fault
  | p1c
      {tid startTs commitTs : Nat}
      {readNodes writeNodes : Finset Nat}
      {fault : Fault}
      (known : server.tidToWriteNodes tid ≠ none)
      (locked : lockKeys tid startTs commitTs (server.getKeys tid) server.lockManager =
        .error fault) :
      Faulted getNode server rid event (.p1c tid startTs commitTs readNodes writeNodes) fault
  | p2cRelease
      {tid : Nat}
      {vote : Bool}
      {fault : Fault}
      (known : server.tidToNodes tid ≠ none)
      (released : (if vote then server.lockManager.freeze tid
        else server.lockManager.unlock tid) = .error fault) :
      Faulted getNode server rid event (.p2c tid vote) fault
  | p2c
      {tid : Nat}
      {vote : Bool}
      {fault : Fault}
      {lockManager : AVLTreeLockManager}
      {events : Finset Nat}
      (known : server.tidToNodes tid ≠ none)
      (released : (if vote then server.lockManager.freeze tid
        else server.lockManager.unlock tid) = .ok (lockManager, events))
      (ran : runEvents (ascending events)
        { server with
          tidToNodes := Function.update server.tidToNodes tid none
          lockManager := lockManager } = .error fault) :
      Faulted getNode server rid event (.p2c tid vote) fault
  | p2cReplied
      {tid : Nat}
      {vote : Bool}
      {lockManager : AVLTreeLockManager}
      {events : Finset Nat}
      {server' : SimpleTServer}
      (known : server.tidToNodes tid ≠ none)
      (released : (if vote then server.lockManager.freeze tid
        else server.lockManager.unlock tid) = .ok (lockManager, events))
      (ran : runEvents (ascending events)
        { server with
          tidToNodes := Function.update server.tidToNodes tid none
          lockManager := lockManager } = .ok server')
      (sent : server'.replies rid ≠ none) :
      Faulted getNode server rid event (.p2c tid vote) .exit

variable {getNode : Nat → Nat} {server server' : SimpleTServer} {rid event : Nat}
  {unset : Bool} {request : Request} {fault : Fault}

theorem error_of_bind {α β ε : Type} {first : Except ε α} {next : α → Except ε β} {error : ε}
    (failed : first >>= next = .error error) :
    first = .error error ∨ ∃ outcome, first = .ok outcome ∧ next outcome = .error error := by
  cases first with
  | error other => exact .inl (congrArg Except.error (Except.error.inj failed))
  | ok outcome => exact .inr ⟨outcome, rfl, failed⟩

theorem sendReply_eq_error {reply : Reply} (failed : server.sendReply rid reply = .error fault) :
    fault = .exit ∧ server.replies rid ≠ none := by
  rw [sendReply] at failed
  split at failed
  · next sent => exact ⟨(Except.error.inj failed).symm, by simp [sent]⟩
  · exact absurd failed (by simp)

theorem lockMutex_eq_error {held : Bool} (failed : lockMutex held = .error fault) :
    fault = .selfDeadlock ∧ held = true := by
  cases held with
  | false => simp [lockMutex] at failed
  | true => exact ⟨(Except.error.inj failed).symm, rfl⟩

/-- How `getEvent` faults. -/
theorem faulted_of_getEvent
    (failed : server.getEvent getNode rid event unset request = .error fault) :
    Faulted getNode server rid event request fault := by
  cases request with
  | read tid startTs key =>
      rw [getEvent] at failed
      split at failed
      · rcases error_of_bind failed with locked | ⟨outcome, -, failed⟩
        · obtain ⟨rfl, held⟩ := lockMutex_eq_error locked
          exact .deadlock (.inl held)
        · exact absurd failed (by simp [pure, Except.pure])
      · next refused =>
          obtain rfl := Except.error.inj failed
          exact .readRefused refused
  | write tid key value =>
      rw [getEvent] at failed
      split at failed
      · rcases error_of_bind failed with locked | ⟨outcome, -, failed⟩
        · obtain ⟨rfl, held⟩ := lockMutex_eq_error locked
          exact .deadlock (.inl held)
        · rcases error_of_bind failed with locked | ⟨outcome, -, failed⟩
          · obtain ⟨rfl, held⟩ := lockMutex_eq_error locked
            exact .deadlock (.inr held)
          · exact absurd failed (by simp [pure, Except.pure])
      · rcases error_of_bind failed with again | ⟨outcome, -, failed⟩
        · obtain ⟨rfl, sent⟩ := sendReply_eq_error again
          exact .replied sent
        · exact absurd failed (by simp [pure, Except.pure])
  | p1c tid startTs commitTs readNodes writeNodes =>
      rw [getEvent] at failed
      rcases error_of_bind failed with locked | ⟨outcome, -, failed⟩
      · obtain ⟨rfl, held⟩ := lockMutex_eq_error locked
        exact .deadlock (.inr held)
      · split at failed
        · rcases error_of_bind failed with again | ⟨outcome, -, failed⟩
          · obtain ⟨rfl, sent⟩ := sendReply_eq_error again
            exact .replied sent
          · exact absurd failed (by simp [pure, Except.pure])
        · exact absurd failed (by simp [pure, Except.pure])
  | p2c tid vote =>
      rw [getEvent] at failed
      rcases error_of_bind failed with locked | ⟨outcome, -, failed⟩
      · obtain ⟨rfl, held⟩ := lockMutex_eq_error locked
        exact .deadlock (.inl held)
      · split at failed
        · rcases error_of_bind failed with again | ⟨outcome, -, failed⟩
          · obtain ⟨rfl, sent⟩ := sendReply_eq_error again
            exact .replied sent
          · exact absurd failed (by simp [pure, Except.pure])
        · exact absurd failed (by simp [pure, Except.pure])

/-- How a `TP2C` that has been taken up faults. -/
theorem faulted_p2c {tid : Nat} {vote : Bool} (nodes : Finset Nat)
    (known : server.tidToNodes tid ≠ none)
    (failed :
      ((if vote then server.lockManager.freeze tid else server.lockManager.unlock tid) >>=
        fun outcome =>
          runEvents (ascending outcome.2)
            { server with
              tidToNodes := Function.update server.tidToNodes tid none
              lockManager := outcome.1 } >>= fun server =>
          (server.finalize tid vote).sendReply rid (.p2c nodes)) = .error fault) :
    Faulted getNode server rid event (.p2c tid vote) fault := by
  rcases error_of_bind failed with released | ⟨outcome, released, failed⟩
  · exact .p2cRelease known released
  · rcases error_of_bind failed with ran | ⟨server₁, ran, failed⟩
    · exact .p2c known released ran
    · obtain ⟨rfl, sent⟩ := sendReply_eq_error failed
      obtain ⟨store, pendWrites, rdyToCommit, same, -⟩ := finalize_eq server₁ tid vote
      rw [same] at sent
      exact .p2cReplied known released ran sent

/-- A request that is not handled faults in one of these ways. -/
theorem faulted_of_handle
    (failed : server.handle getNode rid event unset request = .error fault) :
    Faulted getNode server rid event request fault := by
  rw [handle] at failed
  rcases error_of_bind failed with early | ⟨outcome, taken, failed⟩
  · exact faulted_of_getEvent early
  obtain ⟨server₁, made⟩ := outcome
  cases request with
  | read tid startTs key =>
      rw [getEvent] at taken
      split at taken
      · next served =>
          obtain ⟨_, -, taken⟩ := exists_of_bind taken
          obtain ⟨rfl, rfl⟩ := Prod.mk.inj (Except.ok.inj taken)
          exact .read served failed
      · exact absurd taken (by simp)
  | write tid key value =>
      rw [getEvent] at taken
      split at taken
      · obtain ⟨_, -, taken⟩ := exists_of_bind taken
        obtain ⟨_, -, taken⟩ := exists_of_bind taken
        obtain ⟨rfl, rfl⟩ := Prod.mk.inj (Except.ok.inj taken)
        obtain ⟨rfl, sent⟩ := sendReply_eq_error failed
        exact .replied sent
      · obtain ⟨server₂, -, taken⟩ := exists_of_bind taken
        obtain ⟨rfl, rfl⟩ := Prod.mk.inj (Except.ok.inj taken)
        exact absurd failed (by simp [pure, Except.pure])
  | p1c tid startTs commitTs readNodes writeNodes =>
      rw [getEvent] at taken
      obtain ⟨_, -, taken⟩ := exists_of_bind taken
      split at taken
      · obtain ⟨server₂, -, taken⟩ := exists_of_bind taken
        obtain ⟨rfl, rfl⟩ := Prod.mk.inj (Except.ok.inj taken)
        exact absurd failed (by simp [pure, Except.pure])
      · next nodes known =>
          obtain ⟨rfl, rfl⟩ := Prod.mk.inj (Except.ok.inj taken)
          rcases error_of_bind failed with locked | ⟨outcome, -, failed⟩
          · exact .p1c (by simp [known]) locked
          · obtain ⟨rfl, sent⟩ := sendReply_eq_error failed
            exact .replied sent
  | p2c tid vote =>
      rw [getEvent] at taken
      obtain ⟨_, -, taken⟩ := exists_of_bind taken
      split at taken
      · obtain ⟨server₂, -, taken⟩ := exists_of_bind taken
        obtain ⟨rfl, rfl⟩ := Prod.mk.inj (Except.ok.inj taken)
        exact absurd failed (by simp [pure, Except.pure])
      · next nodes known =>
          obtain ⟨rfl, rfl⟩ := Prod.mk.inj (Except.ok.inj taken)
          refine faulted_p2c nodes (by simp [known]) ?_
          cases vote with
          | false => simpa [SimpleTServer.run, runP2C] using failed
          | true => simpa [SimpleTServer.run, runP2C] using failed

end Mvtx.Server
