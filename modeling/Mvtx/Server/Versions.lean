import Mvtx.Lib.History
import Mvtx.Server.SimpleTServer

/-!
# The versions in the store

`add` collects the writes of a transaction, `prepare` gives it a timestamp, and
`finalize` installs the writes or drops them.  What the store holds after some
calls, of any transactions in any order, is said without the maps of the server:
by the last call that had something to say.
-/

namespace Mvtx.Server

open Lib Lib.History SimpleTServer

/-! ## The last write -/

/-- The value that the last of some writes gives to a key. -/
def lastWrite (writes : List (Nat × String)) (key : Nat) : Option String :=
  writes.reverse.lookup key

theorem lastWrite_append (writes : List (Nat × String)) (key : Nat) (value : String) :
    lastWrite (writes ++ [(key, value)]) =
      Function.update (lastWrite writes) key (some value) := by
  funext other
  by_cases same : other = key
  · subst same
    simp [lastWrite]
  · simp [lastWrite, List.lookup_cons, beq_false_of_ne same, same]

theorem lastWrite_ne_none {writes : List (Nat × String)} {key : Nat} :
    lastWrite writes key ≠ none ↔ key ∈ writes.map (·.1) := by
  induction writes using List.reverseRecOn with
  | nil => simp [lastWrite]
  | append_singleton writes write ih =>
      rw [lastWrite_append]
      by_cases same : key = write.1
      · simp [same]
      · rw [Function.update_of_ne same, ih]
        simp [same]

theorem setAll_append (server : SimpleTServer) (ts : Nat) (writes : List (Nat × String))
    (key : Nat) (value : String) :
    server.setAll ts (writes ++ [(key, value)]) = (server.setAll ts writes).set key ts value := by
  induction writes generalizing server with
  | nil => rfl
  | cons write writes ih => exact ih _

/-- The version of a key at a timestamp that is in the store. -/
def SimpleTServer.version (server : SimpleTServer) (key ts : Nat) : Option String :=
  (server.store key).bind (· ts)

theorem SimpleTServer.get_eq (server : SimpleTServer) {key ts : Nat} (positive : 1 ≤ ts) :
    server.get key ts = server.version key ts := by
  rw [SimpleTServer.get, if_neg (by omega), SimpleTServer.version]
  cases server.store key <;> rfl

theorem version_set (server : SimpleTServer) (key ts : Nat) (value : String) (other ts' : Nat) :
    (server.set key ts value).version other ts' =
      if other = key ∧ ts' = ts then some value else server.version other ts' := by
  unfold SimpleTServer.set SimpleTServer.version
  by_cases same : other = key
  · subst same
    by_cases at' : ts' = ts
    · simp [at']
    · cases server.store other <;> simp [at']
  · simp [same]

/-- The last of several writes of a key makes its version. -/
theorem version_setAll (server : SimpleTServer) (ts : Nat) (writes : List (Nat × String))
    (key ts' : Nat) :
    (server.setAll ts writes).version key ts' =
      if ts' = ts then (lastWrite writes key).or (server.version key ts)
      else server.version key ts' := by
  induction writes using List.reverseRecOn with
  | nil =>
      split_ifs with at'
      · rw [at']
        rfl
      · rfl
  | append_singleton writes write ih =>
      rw [setAll_append, version_set, ih, lastWrite_append]
      by_cases at' : ts' = ts <;> by_cases same : key = write.1 <;> simp [at', same]

theorem setAll_frame (server : SimpleTServer) (ts : Nat) (writes : List (Nat × String)) :
    server.setAll ts writes = { server with store := (server.setAll ts writes).store } := by
  induction writes generalizing server with
  | nil => rfl
  | cons write writes ih => exact ih _

theorem finalize_of_unprepared {server : SimpleTServer} {tid : Nat}
    (unprepared : server.rdyToCommit tid = none) (success : Bool) :
    server.finalize tid success = server := by
  simp [finalize, unprepared]

/-- A prepared transaction is finalized alike whether it has pending writes or not. -/
theorem finalize_of_prepared {server : SimpleTServer} {tid ts : Nat}
    (prepared : server.rdyToCommit tid = some ts) (success : Bool) :
    server.finalize tid success =
      { server with
        store :=
          if success then (server.setAll ts ((server.pendWrites tid).getD [])).store
          else server.store
        pendWrites := Function.update server.pendWrites tid none
        rdyToCommit := Function.update server.rdyToCommit tid none } := by
  cases pending : server.pendWrites tid with
  | none =>
      have same : Function.update server.pendWrites tid none = server.pendWrites := by
        rw [← pending, Function.update_eq_self]
      cases success <;> simp [finalize, prepared, pending, same, setAll]
  | some writes =>
      cases success with
      | false => simp [finalize, prepared, pending]
      | true =>
          simp only [finalize, prepared, pending, if_true, Option.getD_some]
          rw [setAll_frame]

/-- Of the versions at the prepared timestamp, those of the written keys change. -/
theorem version_finalize (server : SimpleTServer) (tid : Nat) (success : Bool) (key ts : Nat) :
    (server.finalize tid success).version key ts =
      if success = true ∧ server.rdyToCommit tid = some ts then
        (lastWrite ((server.pendWrites tid).getD []) key).or (server.version key ts)
      else server.version key ts := by
  cases prepared : server.rdyToCommit tid with
  | none => simp [finalize_of_unprepared prepared]
  | some last =>
      rw [finalize_of_prepared prepared]
      cases success with
      | false => simp [SimpleTServer.version]
      | true =>
          have installed := version_setAll server last ((server.pendWrites tid).getD []) key ts
          by_cases same : ts = last
          · subst same
            simpa [SimpleTServer.version] using installed
          · simpa [same, Ne.symm same, SimpleTServer.version] using installed

theorem get_finalize {server : SimpleTServer} {tid ts : Nat} {writes : List (Nat × String)}
    {key : Nat} (positive : 1 ≤ ts) (prepared : server.rdyToCommit tid = some ts)
    (pending : server.pendWrites tid = some writes) (written : key ∈ writes.map (·.1)) :
    (server.finalize tid true).get key ts = lastWrite writes key := by
  rw [get_eq _ positive, version_finalize, if_pos ⟨rfl, prepared⟩, pending]
  obtain ⟨value, known⟩ := Option.ne_none_iff_exists'.1 (lastWrite_ne_none.2 written)
  simp [known]

/-! ## Histories -/

/-- The calls that change the store and what is pending. -/
inductive StoreCall where
  | add (tid key : Nat) (value : String)
  | prepare (tid ts : Nat)
  | finalize (tid : Nat) (success : Bool)
  deriving DecidableEq

/-- One call. -/
def SimpleTServer.call (server : SimpleTServer) : StoreCall → SimpleTServer
  | .add tid key value => server.add tid key value
  | .prepare tid ts => server.prepare tid ts
  | .finalize tid success => server.finalize tid success

/-- The server after some calls. -/
def SimpleTServer.runCalls (history : List StoreCall) : SimpleTServer :=
  history.foldl SimpleTServer.call SimpleTServer.initial

theorem runCalls_append_singleton (history : List StoreCall) (call : StoreCall) :
    runCalls (history ++ [call]) = (runCalls history).call call := by
  simp [runCalls, List.foldl_append]

/-- A transaction has been prepared for a timestamp, and not finalized since. -/
def PreparedAt (history : List StoreCall) (tid ts : Nat) : Prop :=
  LastGives (fun _ call ts => call = .prepare tid ts)
    (fun _ call => (∃ ts, call = .prepare tid ts) ∨ ∃ success, call = .finalize tid success)
    history ts

/--
The last value that a transaction has added for a key, and that has not gone
with a `finalize` of the prepared transaction.
-/
def LastAdded (history : List StoreCall) (tid key : Nat) (value : String) : Prop :=
  LastGives (fun _ call value => call = .add tid key value)
    (fun before call => (∃ value, call = .add tid key value) ∨
      (∃ success, call = .finalize tid success) ∧ ∃ ts, PreparedAt before tid ts)
    history value

/--
The transaction whose successful `finalize` was the last to install a key at its
prepared timestamp has added this value last.
-/
def Installed (history : List StoreCall) (key ts : Nat) (value : String) : Prop :=
  LastGives
    (fun before call value =>
      ∃ tid, call = .finalize tid true ∧ PreparedAt before tid ts ∧ LastAdded before tid key value)
    (fun before call =>
      ∃ tid, call = .finalize tid true ∧ PreparedAt before tid ts ∧
        ∃ value, LastAdded before tid key value)
    history value

/-- The maps of the server hold what a history has left. -/
structure Reflects (server : SimpleTServer) (history : List StoreCall) : Prop where
  prepared : ∀ tid ts, server.rdyToCommit tid = some ts ↔ PreparedAt history tid ts
  added : ∀ tid key value,
    lastWrite ((server.pendWrites tid).getD []) key = some value ↔ LastAdded history tid key value
  pending : ∀ tid, server.pendWrites tid ≠ some []
  installed : ∀ key ts value,
    server.version key ts = some value ↔ Installed history key ts value

variable {server : SimpleTServer} {history : List StoreCall} {tid ts key : Nat} {value : String}

theorem Reflects.initial : Reflects SimpleTServer.initial [] where
  prepared := fun _ _ => iff_of_false (by simp [SimpleTServer.initial]) not_lastGives_nil
  added := fun _ _ _ =>
    iff_of_false (by simp [SimpleTServer.initial, lastWrite]) not_lastGives_nil
  pending := fun _ => by simp [SimpleTServer.initial]
  installed := fun _ _ _ =>
    iff_of_false (by simp [SimpleTServer.initial, SimpleTServer.version]) not_lastGives_nil

theorem preparedAt_append_singleton {call : StoreCall} :
    PreparedAt (history ++ [call]) tid ts ↔
      call = .prepare tid ts ∨
        ¬ ((∃ ts, call = .prepare tid ts) ∨ ∃ success, call = .finalize tid success) ∧
          PreparedAt history tid ts :=
  lastGives_append_singleton

theorem lastAdded_append_singleton {call : StoreCall} :
    LastAdded (history ++ [call]) tid key value ↔
      call = .add tid key value ∨
        ¬ ((∃ value, call = .add tid key value) ∨
          (∃ success, call = .finalize tid success) ∧ ∃ ts, PreparedAt history tid ts) ∧
          LastAdded history tid key value :=
  lastGives_append_singleton

theorem installed_append_singleton {call : StoreCall} :
    Installed (history ++ [call]) key ts value ↔
      (∃ tid, call = .finalize tid true ∧ PreparedAt history tid ts ∧
          LastAdded history tid key value) ∨
        ¬ (∃ tid, call = .finalize tid true ∧ PreparedAt history tid ts ∧
            ∃ value, LastAdded history tid key value) ∧
          Installed history key ts value :=
  lastGives_append_singleton

theorem Reflects.add (reflects : Reflects server history) (tid key : Nat) (value : String) :
    Reflects (server.add tid key value) (history ++ [.add tid key value]) where
  prepared := fun other ts => by
    rw [preparedAt_append_singleton, ← reflects.prepared]
    simp [SimpleTServer.add]
  added := fun other key' value' => by
    rw [lastAdded_append_singleton, ← reflects.added]
    by_cases same : other = tid
    · subst same
      simp only [SimpleTServer.add, Function.update_self, Option.getD_some, lastWrite_append]
      by_cases sameKey : key' = key
      · subst sameKey
        simp [eq_comm]
      · simp [sameKey, Ne.symm sameKey]
    · simp [SimpleTServer.add, same, Ne.symm same]
  pending := fun other => by
    by_cases same : other = tid
    · subst same
      simp [SimpleTServer.add]
    · simpa [SimpleTServer.add, same] using reflects.pending other
  installed := fun key' ts value' => by
    rw [installed_append_singleton, ← reflects.installed]
    simp [SimpleTServer.add, SimpleTServer.version]

theorem Reflects.prepare (reflects : Reflects server history) (tid ts : Nat) :
    Reflects (server.prepare tid ts) (history ++ [.prepare tid ts]) where
  prepared := fun other ts' => by
    rw [preparedAt_append_singleton, ← reflects.prepared]
    by_cases same : other = tid
    · subst same
      simp [SimpleTServer.prepare]
    · simp [SimpleTServer.prepare, same, Ne.symm same]
  added := fun other key value => by
    rw [lastAdded_append_singleton, ← reflects.added]
    simp [SimpleTServer.prepare]
  pending := reflects.pending
  installed := fun key ts' value => by
    rw [installed_append_singleton, ← reflects.installed]
    simp [SimpleTServer.prepare, SimpleTServer.version]

theorem Reflects.exists_added (reflects : Reflects server history) :
    (∃ key value, LastAdded history tid key value) ↔ server.pendWrites tid ≠ none := by
  simp only [← reflects.added]
  cases pending : server.pendWrites tid with
  | none => simp [lastWrite]
  | some writes =>
      refine iff_of_true ?_ (by simp)
      obtain ⟨write, rest, rfl⟩ : ∃ write rest, writes = write :: rest :=
        List.exists_cons_of_ne_nil fun empty => reflects.pending tid (empty ▸ pending)
      obtain ⟨value, known⟩ := Option.ne_none_iff_exists'.1
        (lastWrite_ne_none.2 (show write.1 ∈ (write :: rest).map (·.1) by simp))
      exact ⟨write.1, value, known⟩

theorem Reflects.not_prepared (reflects : Reflects server history) :
    (¬ ∃ ts, PreparedAt history tid ts) ↔ server.rdyToCommit tid = none := by
  simp only [← reflects.prepared, Option.eq_none_iff_forall_ne_some, not_exists, ne_eq]

theorem Reflects.finalize (reflects : Reflects server history) (tid : Nat) (success : Bool) :
    Reflects (server.finalize tid success) (history ++ [.finalize tid success]) := by
  have installed : ∀ key ts value,
      (server.finalize tid success).version key ts = some value ↔
        Installed (history ++ [.finalize tid success]) key ts value := by
    intro key ts value
    have only : ∀ P : Nat → Prop,
        (∃ tid', StoreCall.finalize tid success = .finalize tid' true ∧ P tid') ↔
          success = true ∧ P tid := by
      intro P
      constructor
      · rintro ⟨tid', same, holds⟩
        obtain ⟨rfl, rfl⟩ := StoreCall.finalize.inj same
        exact ⟨rfl, holds⟩
      · rintro ⟨rfl, holds⟩
        exact ⟨tid, rfl, holds⟩
    rw [installed_append_singleton, only, only, ← reflects.installed, ← reflects.prepared,
      version_finalize]
    simp only [← reflects.added]
    by_cases installs : success = true ∧ server.rdyToCommit tid = some ts
    · rw [if_pos installs]
      obtain ⟨rfl, prepared⟩ := installs
      cases lastWrite ((server.pendWrites tid).getD []) key <;> simp [prepared]
    · rw [if_neg installs]
      tauto
  cases prepared : server.rdyToCommit tid with
  | none =>
      have unprepared := reflects.not_prepared.2 prepared
      rw [finalize_of_unprepared prepared] at installed ⊢
      refine ⟨fun other ts => ?_, fun other key value => ?_, reflects.pending, installed⟩
      · rw [preparedAt_append_singleton, ← reflects.prepared]
        by_cases same : tid = other
        · subst same
          simp [prepared]
        · simp [same]
      · rw [lastAdded_append_singleton, ← reflects.added]
        by_cases same : tid = other
        · subst same
          simp [unprepared]
        · simp [same]
  | some ts =>
      have isPrepared : ∃ ts, PreparedAt history tid ts := ⟨ts, (reflects.prepared tid ts).1 prepared⟩
      rw [finalize_of_prepared prepared] at installed ⊢
      refine ⟨fun other ts => ?_, fun other key value => ?_, fun other => ?_, installed⟩
      · rw [preparedAt_append_singleton, ← reflects.prepared]
        by_cases same : other = tid
        · subst same
          simp
        · simp [same, Ne.symm same]
      · rw [lastAdded_append_singleton, ← reflects.added]
        by_cases same : other = tid
        · subst same
          simp [isPrepared, lastWrite]
        · simp [same, Ne.symm same]
      · by_cases same : other = tid
        · simp [same]
        · simpa [same] using reflects.pending other

/-- The maps of the server hold what any calls have left. -/
theorem reflects_runCalls (history : List StoreCall) : Reflects (runCalls history) history := by
  induction history using List.reverseRecOn with
  | nil => exact .initial
  | append_singleton history call ih =>
      rw [runCalls_append_singleton]
      cases call with
      | add tid key value => exact ih.add tid key value
      | prepare tid ts => exact ih.prepare tid ts
      | finalize tid success => exact ih.finalize tid success

/--
After any calls the store is the fold of the successful commits.  `finalize`
leaves it alone if it fails, if the transaction is not prepared or if it has
nothing to install, and removes what is pending of a prepared transaction only.
-/
theorem runCalls_commits (history : List StoreCall) :
    (∀ key ts value,
      (runCalls history).version key ts = some value ↔ Installed history key ts value) ∧
    (∀ key ts,
      (runCalls history).version key ts = none ↔ ¬ ∃ value, Installed history key ts value) ∧
    (∀ tid success,
      success = false ∨ (¬ ∃ ts, PreparedAt history tid ts) ∨
          (¬ ∃ key value, LastAdded history tid key value) →
        (runCalls (history ++ [.finalize tid success])).store = (runCalls history).store) ∧
    ∀ tid success ts, PreparedAt history tid ts →
      (runCalls (history ++ [.finalize tid success])).pendWrites tid = none ∧
      (runCalls (history ++ [.finalize tid success])).rdyToCommit tid = none ∧
      ∀ other, other ≠ tid →
        (runCalls (history ++ [.finalize tid success])).pendWrites other =
            (runCalls history).pendWrites other ∧
          (runCalls (history ++ [.finalize tid success])).rdyToCommit other =
            (runCalls history).rdyToCommit other := by
  have reflects := reflects_runCalls history
  simp only [runCalls_append_singleton, SimpleTServer.call]
  refine ⟨reflects.installed, fun key ts => ?_, fun tid success spared => ?_,
    fun tid success ts prepared => ?_⟩
  · simp only [← reflects.installed, Option.eq_none_iff_forall_ne_some, not_exists, ne_eq]
  · cases prepared : (runCalls history).rdyToCommit tid with
    | none => rw [finalize_of_unprepared prepared]
    | some ts =>
        rw [finalize_of_prepared prepared]
        rcases spared with rfl | unprepared | nothing
        · rfl
        · exact absurd ⟨ts, (reflects.prepared tid ts).1 prepared⟩ unprepared
        · rw [reflects.exists_added, not_not] at nothing
          cases success <;> simp [nothing, setAll]
  · rw [finalize_of_prepared ((reflects.prepared tid ts).2 prepared)]
    refine ⟨Function.update_self .., Function.update_self .., fun other differs => ?_⟩
    exact ⟨Function.update_of_ne differs .., Function.update_of_ne differs ..⟩

/-- A transaction that writes `"a"` for key 5 commits at 9. -/
theorem runCalls_commits_of_one :
    (runCalls [.add 1 5 "a", .prepare 1 9, .finalize 1 true]).version 5 9 = some "a" ∧
      (runCalls ([.add 1 5 "a", .prepare 1 9] ++ [.finalize 1 true])).pendWrites 1 = none := by
  have prepared : PreparedAt [.add 1 5 "a", .prepare 1 9] 1 9 :=
    ⟨[.add 1 5 "a"], .prepare 1 9, [], rfl, rfl, by simp⟩
  have added : LastAdded [.add 1 5 "a", .prepare 1 9] 1 5 "a" := by
    refine ⟨[], .add 1 5 "a", [.prepare 1 9], rfl, rfl, ?_⟩
    rintro (_ | _) other rest split
    · obtain ⟨rfl, -⟩ := List.cons.inj split
      simp
    · simp at split
  exact ⟨((runCalls_commits _).1 5 9 "a").2
      ⟨[.add 1 5 "a", .prepare 1 9], .finalize 1 true, [], rfl, ⟨1, rfl, prepared, added⟩, by simp⟩,
    ((runCalls_commits _).2.2.2 1 true 9 prepared).1⟩

end Mvtx.Server
