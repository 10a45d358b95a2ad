import Mvtx.Lock.Alone
import Mvtx.Server.Handle
import Mvtx.Server.Versions

/-!
# A server with one transaction

Where no transaction is active the server is `Quiet`.  `Serving` says what one
transaction makes of such a server, call by call, and what there is to say of
its requests: a read finds the last version that has been committed or fails for
the lack of it, the first of several writes of a key takes the lock and the
others are refused it, and a `TP2C` fails if it collects an event.
-/

namespace Mvtx.Server

open Lib Lock AVLTreeLockManager SimpleTServer

/-! ## One transaction -/

section Equations

variable {server : SimpleTServer} {rid event tid startTs : Nat} {unset : Bool}

/-- A read that does not wait is answered, unless there is no version. -/
theorem runRead_eq {state : ReadEvent} {manager : AVLTreeLockManager} {last : Nat}
    (present : server.readEvents event = some state) (phase : state.phase = 0)
    (returned : server.lockManager.tryBackwardLock state.key state.tid (uintPred state.startTs)
      true event state.startTs = .ok (manager, true, last + 1))
    (unsent : server.replies state.rid = none) :
    server.runRead event =
      match server.get state.key last with
      | none => .error .nullDereference
      | some value =>
          .ok
            { server with
              lockManager := manager
              readEvents := Function.update server.readEvents event
                (some { state with startTs := last + 1, phase := 2 })
              replies := Function.update server.replies state.rid (some (.read value true)) } := by
  have pred : uintPred (last + 1) = last := uintPred_eq (by omega)
  cases known : server.get state.key last with
  | none =>
      simp only [SimpleTServer.get] at known
      simp only [runRead, present, phase, returned, deref, answerRead, setEvent,
        SimpleTServer.get, known, pred, bind, Except.bind, if_true]
  | some value =>
      simp only [SimpleTServer.get] at known
      simp only [runRead, present, phase, returned, deref, answerRead, setEvent,
        SimpleTServer.get, known, pred, bind, Except.bind, if_true, sendReply, unsent]

theorem handle_read (nodes : server.nodes = {0}) (unlocked : server.tidMutex = false)
    (key : Nat) :
    server.handle (fun _ => 0) rid event unset (.read tid startTs key) =
      (server.takenUp (fun _ => 0) rid event tid startTs key).runRead event := by
  simp [handle, getEvent, nodes, unlocked, lockMutex, bind, Except.bind, pure, Except.pure,
    takenUp, SimpleTServer.run]

theorem handle_write (nodes : server.nodes = {0})
    (unlocked : server.tidMutex = false ∧ server.tidWriteMutex = false)
    (unsent : server.replies rid = none) (key : Nat) (value : String) :
    server.handle (fun _ => 0) rid event unset (.write tid key value) =
      .ok (({ server with
        tidToNodes := insertNode server.tidToNodes tid 0
        tidToWriteNodes := insertNode server.tidToWriteNodes tid 0 }.add tid key value).replied
          rid (.write true)) := by
  simp [handle, getEvent, nodes, unlocked, lockMutex, bind, Except.bind, pure, Except.pure,
    SimpleTServer.run, sendReply, SimpleTServer.add, unsent, replied]

theorem handle_p1c {nodes readNodes writeNodes : Finset Nat} {manager : AVLTreeLockManager}
    {res : Bool} (known : server.tidToWriteNodes tid = some nodes)
    (unlocked : server.tidWriteMutex = false) (unsent : server.replies rid = none)
    (locked : lockKeys tid startTs startTs (server.getKeys tid) server.lockManager =
      .ok (manager, res)) :
    server.handle (fun _ => 0) rid event unset (.p1c tid startTs startTs readNodes writeNodes) =
      .ok (({ server with
        tidToWriteNodes := Function.update server.tidToWriteNodes tid none
        lockManager := manager }.prepare tid startTs).replied rid
          (.p1c (nodes ∪ readNodes ∪ writeNodes) res)) := by
  simp only [getKeys] at locked
  simp [handle, getEvent, known, unlocked, lockMutex, bind, Except.bind, pure, Except.pure,
    SimpleTServer.run, runP1C, getKeys, locked, sendReply, prepare, unsent, replied]

/-- An event that has been answered cannot be run. -/
theorem runRead_answered
    (answered : ∀ state, server.readEvents event = some state → state.phase = 2) :
    ∃ fault, server.runRead event = .error fault := by
  cases present : server.readEvents event with
  | none => exact ⟨.nullDereference, by simp [runRead, present, deref, bind, Except.bind]⟩
  | some state =>
      have phase := answered state present
      exact ⟨.exit, by simp [runRead, present, phase, deref, bind, Except.bind]⟩

/-- A commit, up to the events which it runs. -/
theorem handle_p2c {nodes : Finset Nat} {manager : AVLTreeLockManager} {events : Finset Nat}
    (known : server.tidToNodes tid = some nodes) (unlocked : server.tidMutex = false)
    (released : server.lockManager.freeze tid = .ok (manager, events)) :
    server.handle (fun _ => 0) rid event unset (.p2c tid true) =
      (runEvents (ascending events)
        { server with
          tidToNodes := Function.update server.tidToNodes tid none
          lockManager := manager } >>= fun server =>
        (server.finalize tid true).sendReply rid (.p2c nodes)) := by
  simp [handle, getEvent, known, unlocked, lockMutex, bind, Except.bind, pure, Except.pure,
    SimpleTServer.run, runP2C, released]

end Equations

/-- A server where no transaction is active. -/
structure SimpleTServer.Quiet (server : SimpleTServer) (bound sent : Nat) : Prop where
  nodes : server.nodes = {0}
  idle : server.lockManager.Idle bound
  known : ∀ tid, server.tidToNodes tid = none
  knownWrite : ∀ tid, server.tidToWriteNodes tid = none
  pendWrites : ∀ tid, server.pendWrites tid = none
  rdyToCommit : ∀ tid, server.rdyToCommit tid = none
  mutexes : server.tidMutex = false ∧ server.tidWriteMutex = false
  answered : ∀ event state, server.readEvents event = some state → state.phase = 2
  unsent : ∀ rid, sent < rid → server.replies rid = none

/-- The version that a transaction alone reads. -/
def SimpleTServer.lastVersion (server : SimpleTServer) (startTs key : Nat) : Option String :=
  server.get key (server.lockManager.lastFrozen key startTs)

/--
A server that has handled some reads and writes of a transaction, and its
`TP1C` if it is prepared.
-/
structure Serving (base server : SimpleTServer) (sent tid startTs : Nat) (asked : Finset Nat)
    (writes : List (Nat × String)) (prepared : Bool) : Prop where
  nodes : server.nodes = {0}
  store : server.store = base.store
  alone : Alone base.lockManager server.lockManager tid startTs asked
    (if prepared then (writes.map (·.1)).toFinset else ∅)
  known : ∀ other, server.tidToNodes other =
    if other = tid ∧ (asked ≠ ∅ ∨ writes ≠ []) then some {0} else none
  knownWrite : ∀ other, server.tidToWriteNodes other =
    if other = tid ∧ writes ≠ [] ∧ prepared = false then some {0} else none
  pendWrites : ∀ other, server.pendWrites other =
    if other = tid ∧ writes ≠ [] then some writes else none
  rdyToCommit : ∀ other, server.rdyToCommit other =
    if other = tid ∧ writes ≠ [] ∧ prepared = true then some startTs else none
  mutexes : server.tidMutex = false ∧ server.tidWriteMutex = false
  answered : ∀ event state, server.readEvents event = some state → state.phase = 2
  unsent : ∀ rid, sent < rid → server.replies rid = none

/-- A transaction alone gets the locks of its keys, unless it has written one of them twice. -/
theorem lockKeys_alone {base manager : AVLTreeLockManager} {tid startTs : Nat}
    {reads writes : Finset Nat} (alone : Alone base manager tid startTs reads writes)
    (idle : base.Idle startTs) (bound : startTs < uintMax) (keys : List Nat) :
    ∃ manager' vote, lockKeys tid startTs startTs keys manager = .ok (manager', vote) ∧
      (vote = true ↔ keys.Nodup ∧ ∀ key ∈ keys, key ∉ writes) ∧
      (vote = true → Alone base manager' tid startTs reads (writes ∪ keys.toFinset)) := by
  induction keys generalizing manager writes with
  | nil => exact ⟨manager, true, rfl, by simp, fun _ => by simpa using alone⟩
  | cons key keys ih =>
      by_cases written : key ∈ writes
      · obtain ⟨manager', refused⟩ := alone.tryLock_again idle bound written
        refine ⟨manager', false, ?_, by simp [written], by simp⟩
        simp [lockKeys, refused, bind, Except.bind, pure, Except.pure]
      · obtain ⟨manager₁, granted, alone₁⟩ := alone.tryLock_first idle bound written
        obtain ⟨manager', vote, locked, votes, alone'⟩ := ih alone₁
        refine ⟨manager', vote, ?_, ?_, fun yes => ?_⟩
        · simpa [lockKeys, granted, bind, Except.bind] using locked
        · rw [votes]
          simp only [List.nodup_cons, List.forall_mem_cons, Finset.mem_insert, not_or]
          constructor
          · rintro ⟨once, apart⟩
            exact ⟨⟨fun member => (apart key member).1 rfl, once⟩, written,
              fun other member => (apart other member).2⟩
          · rintro ⟨⟨absent, once⟩, -, apart⟩
            exact ⟨once, fun other member =>
              ⟨fun same => absent (same ▸ member), apart other member⟩⟩
        · simpa [Finset.insert_union] using alone' yes

namespace Serving

variable {base server : SimpleTServer} {sent tid startTs : Nat} {asked : Finset Nat}
  {writes : List (Nat × String)} {prepared : Bool} {key : Nat}

theorem refl {bound : Nat} (quiet : base.Quiet bound sent) (within : bound ≤ startTs) :
    Serving base base sent tid startTs ∅ [] false where
  nodes := quiet.nodes
  store := rfl
  alone := .refl (quiet.idle.mono within)
  known := by simp [quiet.known]
  knownWrite := by simp [quiet.knownWrite]
  pendWrites := by simp [quiet.pendWrites]
  rdyToCommit := by simp [quiet.rdyToCommit]
  mutexes := quiet.mutexes
  answered := quiet.answered
  unsent := quiet.unsent

theorem insertNode_known {map : Nat → Option (Finset Nat)} {some' : Prop} [Decidable some']
    (known : ∀ other, map other = if other = tid ∧ some' then some {0} else none) (other : Nat) :
    insertNode map tid 0 other = if other = tid then some {0} else none := by
  by_cases same : other = tid
  · subst same
    rw [insertNode, Function.update_self, known]
    by_cases holds : some' <;> simp [holds]
  · rw [insertNode, Function.update_of_ne same, known]
    simp [same]

/-- A read finds the last version that has been committed, or there is none. -/
theorem read (serving : Serving base server sent tid startTs asked writes false)
    (idle : base.lockManager.Idle startTs) (positive : 1 ≤ startTs) (bound : startTs ≤ uintMax)
    (key event : Nat) (unset : Bool) :
    (base.lastVersion startTs key = none ∧
        server.handle (fun _ => 0) (sent + 1) event unset (.read tid startTs key) =
          .error .nullDereference) ∨
      ∃ value server', base.lastVersion startTs key = some value ∧
        server.handle (fun _ => 0) (sent + 1) event unset (.read tid startTs key) = .ok server' ∧
        server'.replies (sent + 1) = some (.read value true) ∧
        (∀ other, other ≠ event → server'.readEvents other = server.readEvents other) ∧
        Serving base server' (sent + 1) tid startTs (insert key asked) writes false := by
  obtain ⟨manager', returned, alone⟩ := serving.alone.read idle positive bound key event
  have version : server.get key (base.lockManager.lastFrozen key startTs) =
      base.lastVersion startTs key := by
    rw [lastVersion, SimpleTServer.get, SimpleTServer.get, serving.store]
  have unsent := serving.unsent (sent + 1) (by omega)
  rw [← uintPred_eq positive] at returned
  rw [handle_read serving.nodes serving.mutexes.1 key,
    runRead_eq (Function.update_self ..) rfl returned unsent]
  have same : (server.takenUp (fun _ => 0) (sent + 1) event tid startTs key).get key
      (base.lockManager.lastFrozen key startTs) = base.lastVersion startTs key := version
  cases known : base.lastVersion startTs key with
  | none =>
      refine .inl ⟨rfl, ?_⟩
      simp only [same, known]
  | some value =>
      refine .inr ⟨value, _, rfl, by simp only [same, known]; rfl, Function.update_self ..,
        fun other differs => ?_, ?_⟩
      · simp [takenUp, setEvent, differs]
      · refine
          { nodes := serving.nodes
            store := serving.store
            alone := by simpa using alone
            known := fun other => ?_
            knownWrite := serving.knownWrite
            pendWrites := serving.pendWrites
            rdyToCommit := serving.rdyToCommit
            mutexes := serving.mutexes
            answered := fun other state present => ?_
            unsent := fun rid above => ?_ }
        · have unlisted := insertNode_known serving.known other
          simpa [takenUp, setEvent] using unlisted
        · by_cases same : other = event
          · subst same
            obtain rfl := by simpa using present
            rfl
          · refine serving.answered other state ?_
            simpa [takenUp, setEvent, same] using present
        · have later : rid ≠ sent + 1 := by omega
          simpa [takenUp, setEvent, later] using serving.unsent rid (by omega)

theorem write (serving : Serving base server sent tid startTs asked writes false)
    (key event : Nat) (unset : Bool) (value : String) :
    ∃ server', server.handle (fun _ => 0) (sent + 1) event unset (.write tid key value) =
        .ok server' ∧
      server'.readEvents = server.readEvents ∧
      Serving base server' (sent + 1) tid startTs asked (writes ++ [(key, value)]) false := by
  have unsent := serving.unsent (sent + 1) (by omega)
  refine ⟨_, handle_write serving.nodes serving.mutexes unsent key value, rfl, ?_⟩
  refine
    { nodes := serving.nodes
      store := serving.store
      alone := serving.alone
      known := fun other => ?_
      knownWrite := fun other => ?_
      pendWrites := fun other => ?_
      rdyToCommit := fun other => ?_
      mutexes := serving.mutexes
      answered := serving.answered
      unsent := fun rid above => ?_ }
  · simpa [replied, SimpleTServer.add] using insertNode_known serving.known other
  · simpa [replied, SimpleTServer.add] using insertNode_known serving.knownWrite other
  · by_cases same : other = tid
    · subst same
      by_cases none' : writes = [] <;> simp [replied, SimpleTServer.add, serving.pendWrites, none']
    · simpa [replied, SimpleTServer.add, same] using serving.pendWrites other
  · simpa [replied, SimpleTServer.add] using serving.rdyToCommit other
  · have later : rid ≠ sent + 1 := by omega
    simpa [replied, SimpleTServer.add, later] using serving.unsent rid (by omega)

/-- A transaction that has not written anything is prepared. -/
theorem prepared_of_nil (serving : Serving base server sent tid startTs asked [] false) :
    Serving base server sent tid startTs asked [] true where
  nodes := serving.nodes
  store := serving.store
  alone := serving.alone
  known := serving.known
  knownWrite := by simpa using serving.knownWrite
  pendWrites := serving.pendWrites
  rdyToCommit := by simpa using serving.rdyToCommit
  mutexes := serving.mutexes
  answered := serving.answered
  unsent := serving.unsent

/-- The vote is for the transaction if it has written every key once. -/
theorem p1c (serving : Serving base server sent tid startTs asked writes false)
    (idle : base.lockManager.Idle startTs) (bound : startTs < uintMax) (some' : writes ≠ [])
    (event : Nat) (unset : Bool) (readNodes writeNodes : Finset Nat) :
    ∃ server' vote,
      server.handle (fun _ => 0) (sent + 1) event unset
          (.p1c tid startTs startTs readNodes writeNodes) = .ok server' ∧
        server'.replies (sent + 1) = some (.p1c ({0} ∪ readNodes ∪ writeNodes) vote) ∧
        (vote = true ↔ (writes.map (·.1)).Nodup) ∧
        ((writes.map (·.1)).Nodup →
          Serving base server' (sent + 1) tid startTs asked writes true) := by
  have unsent := serving.unsent (sent + 1) (by omega)
  have known : server.tidToWriteNodes tid = some {0} := by
    rw [serving.knownWrite, if_pos ⟨rfl, some', rfl⟩]
  have keys : server.getKeys tid = writes.map (·.1) := by
    rw [getKeys, serving.pendWrites, if_pos ⟨rfl, some'⟩]
  obtain ⟨manager, vote, locked, votes, alone⟩ :=
    lockKeys_alone serving.alone idle bound (writes.map (·.1))
  rw [← keys] at locked
  refine ⟨_, vote, handle_p1c known serving.mutexes.2 unsent locked, Function.update_self ..,
    ?_, fun once => ?_⟩
  · rw [votes]
    simp
  · have granted := votes.2 ⟨once, by simp⟩
    refine
      { nodes := serving.nodes
        store := serving.store
        alone := by simpa [prepare, replied] using alone granted
        known := serving.known
        knownWrite := fun other => ?_
        pendWrites := serving.pendWrites
        rdyToCommit := fun other => ?_
        mutexes := serving.mutexes
        answered := serving.answered
        unsent := fun rid above => ?_ }
    · by_cases same : other = tid
      · simp [prepare, replied, same]
      · simpa [prepare, replied, same] using serving.knownWrite other
    · by_cases same : other = tid
      · simp [prepare, replied, same, some']
      · simpa [prepare, replied, same] using serving.rdyToCommit other
    · have later : rid ≠ sent + 1 := by omega
      simpa [prepare, replied, later] using serving.unsent rid (by omega)

/-- A commit succeeds unless it collects an event; all events have been answered. -/
theorem p2c (serving : Serving base server sent tid startTs asked writes true)
    (idle : base.lockManager.Idle startTs) (positive : 1 ≤ startTs) (bound : startTs < uintMax)
    (some' : asked ≠ ∅ ∨ writes ≠ []) (event : Nat) (unset : Bool) :
    ((∃ key ∈ asked, ∃ ts, base.lockManager.Reaches startTs key ts ∧
          base.lockManager.eventsAt key ts ≠ ∅) ∧
        ∃ fault, server.handle (fun _ => 0) (sent + 1) event unset (.p2c tid true) =
          .error fault) ∨
      (∀ key ∈ asked, ∀ ts, base.lockManager.Reaches startTs key ts →
          base.lockManager.eventsAt key ts = ∅) ∧
        ∃ server', server.handle (fun _ => 0) (sent + 1) event unset (.p2c tid true) =
            .ok server' ∧
          server'.replies (sent + 1) = some (.p2c {0}) ∧
          server'.Quiet (startTs + 1) (sent + 1) ∧
          ∀ key ∈ writes.map (·.1),
            server'.lockManager.statusAt key startTs = some .freezeWriteLock ∧
              server'.get key startTs = lastWrite writes key := by
  have unsent := serving.unsent (sent + 1) (by omega)
  have known : server.tidToNodes tid = some {0} := by
    rw [serving.known, if_pos ⟨rfl, some'⟩]
  obtain ⟨manager, events, released, idle', frozen, collected⟩ :=
    serving.alone.freeze idle bound
  rw [handle_p2c known serving.mutexes.1 released]
  by_cases none' : events = ∅
  · subst none'
    refine .inr ⟨fun key member ts reaches => ?_, ?_⟩
    · by_contra registered
      obtain ⟨event', there⟩ := Finset.nonempty_iff_ne_empty.2 registered
      exact absurd ((collected event').2 ⟨key, member, ts, reaches, there⟩) (by simp)
    · obtain ⟨server₁, rest⟩ : ∃ server₁, server₁ =
          { server with
            tidToNodes := Function.update server.tidToNodes tid none
            lockManager := manager } := ⟨_, rfl⟩
      obtain ⟨store, pendWrites, rdyToCommit, same, pends, preps, unprepared, unpending⟩ :=
        finalize_eq server₁ tid true
      refine ⟨(server₁.finalize tid true).replied (sent + 1) (.p2c {0}), ?_,
        Function.update_self .., ?_, fun key written => ⟨?_, ?_⟩⟩
      · rw [show ascending ∅ = [] from rfl, ← rest]
        have unsent' : (server₁.finalize tid true).replies (sent + 1) = none := by
          rw [same, rest]
          exact unsent
        simp [runEvents, bind, Except.bind, sendReply, unsent', replied]
      · rw [same]
        subst rest
        refine
          { nodes := serving.nodes
            idle := idle'
            known := fun other => ?_
            knownWrite := fun other => ?_
            pendWrites := fun other => ?_
            rdyToCommit := fun other => ?_
            mutexes := serving.mutexes
            answered := serving.answered
            unsent := fun rid above => ?_ }
        · by_cases mine : other = tid
          · simp [replied, mine]
          · simpa [replied, mine] using serving.known other
        · simpa [replied] using serving.knownWrite other
        · by_cases mine : other = tid
          · subst mine
            simp only [replied, unpending, serving.rdyToCommit, serving.pendWrites, true_and,
              and_true]
            by_cases nothing : writes = [] <;> simp [nothing]
          · simpa [replied, pends other mine, mine] using serving.pendWrites other
        · by_cases mine : other = tid
          · simp [replied, mine, unprepared]
          · simpa [replied, preps other mine, mine] using serving.rdyToCommit other
        · have later : rid ≠ sent + 1 := by omega
          simpa [replied, later] using serving.unsent rid (by omega)
      · rw [same, rest]
        exact frozen key (by simpa using written)
      · have written' : writes ≠ [] := by
          rintro rfl
          simp at written
        refine get_finalize positive ?_ ?_ written
        · rw [rest, serving.rdyToCommit, if_pos ⟨rfl, written', rfl⟩]
        · rw [rest, serving.pendWrites, if_pos ⟨rfl, written'⟩]
  · refine .inl ⟨?_, ?_⟩
    · obtain ⟨event', there⟩ := Finset.nonempty_iff_ne_empty.2 none'
      obtain ⟨key, member, ts, reaches, registered⟩ := (collected event').1 there
      exact ⟨key, member, ts, reaches, Finset.ne_empty_of_mem registered⟩
    · have listed : ascending events ≠ [] := by
        obtain ⟨event', there⟩ := Finset.nonempty_iff_ne_empty.2 none'
        exact List.ne_nil_of_mem (mem_ascending.2 there)
      obtain ⟨event', rest, is⟩ := List.exists_cons_of_ne_nil listed
      obtain ⟨fault, fails⟩ : ∃ fault, SimpleTServer.runRead
          { server with
            tidToNodes := Function.update server.tidToNodes tid none
            lockManager := manager } event' = .error fault :=
        runRead_answered (serving.answered event')
      refine ⟨fault, ?_⟩
      rw [is, runEvents, fails]
      rfl

end Serving

end Mvtx.Server
