import Mvtx.Cluster.Mirrors

/-!
# Every step is one of the protocol

Each step of the world is matched by steps of multiversion timestamp ordering,
as long as no transaction gives up a read lock that others share with it.
-/

namespace Mvtx.Cluster

open Lib Lib.Serial Lib.Multiversion Lock Server

variable {world world' : World} {id event : Nat} {unset : Bool} {request : Request}
  {transaction transaction' : Transaction} {server server' : SimpleTServer} {record : Account}
  {programs : Nat → List (Operation Nat String)} {program : List (Operation Nat String)}
  {state state' : Protocol} {rid key : Nat} {value : String}

/-- A step of the world is matched by steps of the protocol. -/
def Matched (programs : Nat → List (Operation Nat String)) (state : Protocol)
    (world world' : World) : Prop :=
  ∃ state', Relation.ReflTransGen Step state state' ∧
    (Exact world.server state → Exact world'.server state') ∧
    Mirrors programs world'.transactions world'.server state'

/-! ## The log of one transaction -/

theorem Transaction.waitsFor_of_idle
    (idle : ∀ rid key node, transaction.stage ≠ .reading rid key node) :
    transaction.waitsFor server = [] := by
  unfold Transaction.waitsFor
  split
  · next stage => exact absurd stage (idle _ _ _)
  · rfl
  · rfl
  · rfl
  · rfl

theorem Transaction.collected_of_idle
    (idle : ∀ rid key node, transaction.stage ≠ .reading rid key node) :
    transaction.collected server = transaction.returned := by
  unfold Transaction.collected
  split
  · next stage => exact absurd stage (idle _ _ _)
  · rfl
  · rfl
  · rfl
  · rfl

namespace Logged

/-- The reply to a read is collected. -/
theorem collect (logged : Logged server program transaction record) {node : Nat} {status : Bool}
    (stage : transaction.stage = .reading rid key node)
    (replied : server.replies rid = some (.read value status)) :
    Logged server program
      { transaction with
        readNodes := insert node transaction.readNodes
        returned := transaction.returned ++ [(key, if status then some value else none)]
        stage := .active } record := by
  have active := logged.active_of_reading stage
  have program_eq := logged.program
  have answers := logged.answers
  simp only [Transaction.waitsFor, stage, replied] at program_eq
  simp only [Transaction.collected, stage, replied] at answers
  refine .of_active active (by simp [Transaction.Finishing]) (by simp [Transaction.Committed])
    logged.start ?_ answers logged.written (by simp) logged.guarded
    (logged.pending (.inl active)) logged.prepared
  simpa [Transaction.waitsFor] using program_eq

/-- A transaction reads what it has written itself. -/
theorem readOwn (logged : Logged server program transaction record)
    (stage : transaction.stage = .active) :
    Logged server (program ++ [.read key])
      { transaction with returned := transaction.returned ++ [(key, some value)] }
      (record.append (.read key value)) := by
  have active := logged.active_of_active stage
  have program_eq := logged.program
  have answers := logged.answers
  simp only [Transaction.waitsFor, stage, List.append_nil] at program_eq
  simp only [Transaction.collected, stage] at answers
  refine .of_active active (by simp [Transaction.Finishing, stage])
    (by simp [Transaction.Committed, stage]) logged.start ?_ ?_ ?_ (by simp [stage])
    (fun key some' => List.mem_append_left _ (logged.guarded key some')) ?_ logged.prepared
  · simp [program_eq, Record.append, Entry.operation, Transaction.waitsFor, stage]
  · simp [Record.append, Entry.answer, Transaction.collected, stage, answers]
  · rw [← logged.written]
    exact lastWritten_append_read _ _ _
  · rw [logged.pending (.inl active)]
    simp [Record.append, Entry.written]

/-- A transaction asks for a read that is not answered yet. -/
theorem ask (logged : Logged server program transaction record) {node : Nat}
    (stage : transaction.stage = .active) (unwritten : transaction.pendWrites key = none)
    (fresh : server'.replies rid = none)
    (pendWrites : server'.pendWrites transaction.tid = server.pendWrites transaction.tid)
    (rdyToCommit : server'.rdyToCommit transaction.tid = server.rdyToCommit transaction.tid) :
    Logged server' (program ++ [.read key])
      { transaction with stage := .reading rid key node } record := by
  have active := logged.active_of_active stage
  have program_eq := logged.program
  have answers := logged.answers
  simp only [Transaction.waitsFor, stage, List.append_nil] at program_eq
  simp only [Transaction.collected, stage] at answers
  refine .of_active active (by simp [Transaction.Finishing]) (by simp [Transaction.Committed])
    logged.start ?_ ?_ logged.written ?_
    (fun key some' => List.mem_append_left _ (logged.guarded key some')) ?_ ?_
  · simp [program_eq, Transaction.waitsFor, fresh]
  · simpa [Transaction.collected, fresh] using answers
  · intro rid' key' node' same
    obtain ⟨-, rfl, -⟩ := Stage.reading.inj same
    exact unwritten
  · rw [← logged.pending (.inl active)]
    exact congrArg (·.getD []) pendWrites
  · intro ts ready
    exact logged.prepared ts (rdyToCommit ▸ ready)

/-- A transaction writes. -/
theorem write (logged : Logged server program transaction record)
    (stage : transaction.stage = .active)
    (pendWrites : server'.pendWrites transaction.tid =
      some ((server.pendWrites transaction.tid).getD [] ++ [(key, value)]))
    (rdyToCommit : server'.rdyToCommit transaction.tid = server.rdyToCommit transaction.tid)
    (writeNodes : Finset Nat) :
    Logged server' (program ++ [.write key value])
      { transaction with
        pendWrites := Function.update transaction.pendWrites key (some value)
        writeNodes := writeNodes }
      (record.append (.write key value)) := by
  have active := logged.active_of_active stage
  have program_eq := logged.program
  have answers := logged.answers
  simp only [Transaction.waitsFor, stage, List.append_nil] at program_eq
  simp only [Transaction.collected, stage] at answers
  refine .of_active active (by simp [Transaction.Finishing, stage])
    (by simp [Transaction.Committed, stage]) logged.start ?_ ?_ ?_ (by simp [stage])
    (fun key some' => List.mem_append_left _ (logged.guarded key some')) ?_ ?_
  · simp [program_eq, Record.append, Entry.operation, Transaction.waitsFor, stage]
  · simp [Record.append, Entry.answer, Transaction.collected, stage, answers]
  · rw [← logged.written]
    exact lastWritten_append_write _ _ _
  · simp [pendWrites, logged.pending (.inl active), Record.append, Entry.written]
  · intro ts ready
    exact logged.prepared ts (rdyToCommit ▸ ready)

/-- Where nothing is pending, nothing has been written. -/
theorem silent (logged : Logged server program transaction record) (unsettled : Open record)
    (nothing : server.pendWrites transaction.tid = none) (key : Nat) :
    lastWritten record.log key = none := by
  by_contra wrote
  have member := lastWritten_ne_none.1 wrote
  rw [← logged.pending unsettled, nothing] at member
  simp at member

/-- A transaction that does not read goes on with `commit` or `abort`. -/
theorem proceed (logged : Logged server program transaction record) (stage : Stage)
    {phase : Phase}
    (idle : ∀ rid key node, transaction.stage ≠ .reading rid key node)
    (idle' : ∀ rid key node, stage ≠ .reading rid key node)
    (known : server'.tidToNodes transaction.tid = server.tidToNodes transaction.tid)
    (pendWrites : server'.pendWrites transaction.tid = server.pendWrites transaction.tid)
    (rdyToCommit : ∀ ts, server'.rdyToCommit transaction.tid = some ts → ts = transaction.startTs)
    (unsettled : Open record) (unsettled' : phase = .active ∨ phase = .decided)
    (decided : phase = .decided ↔ Transaction.Committed { transaction with stage := stage })
    (settled : Transaction.Finishing { transaction with stage := stage } →
      server.tidToNodes transaction.tid = none → ∀ key, lastWritten record.log key = none) :
    Logged server' program { transaction with stage := stage } { record with phase := phase } where
  start := logged.start
  program := by
    rw [Transaction.waitsFor_of_idle idle', ← Transaction.waitsFor_of_idle idle]
    exact logged.program
  answers := by
    rw [Transaction.collected_of_idle idle']
    exact (Transaction.collected_of_idle idle).symm.trans logged.answers
  written := logged.written
  unwritten := fun rid key node same => absurd same (idle' rid key node)
  guarded := logged.guarded
  decided := by
    rw [← decided]
    rcases unsettled' with rfl | rfl <;> simp [Record.Decided]
  live := fun _ => unsettled'
  settled := fun finishing forgotten _ => settled finishing (known ▸ forgotten)
  pending := fun _ => by
    rw [← logged.pending unsettled]
    exact congrArg (·.getD []) pendWrites
  prepared := rdyToCommit

/-- Only the nodes that are left change, or the loop ends. -/
theorem restage (logged : Logged server program transaction record) (stage : Stage)
    (idle : ∀ rid key node, transaction.stage ≠ .reading rid key node)
    (idle' : ∀ rid key node, stage ≠ .reading rid key node)
    (decided : Transaction.Committed { transaction with stage := stage } ↔ transaction.Committed)
    (finishing : Transaction.Finishing { transaction with stage := stage } ↔
      transaction.Finishing) :
    Logged server program { transaction with stage := stage } record where
  start := logged.start
  program := by
    rw [Transaction.waitsFor_of_idle idle', ← Transaction.waitsFor_of_idle idle]
    exact logged.program
  answers := by
    rw [Transaction.collected_of_idle idle']
    exact (Transaction.collected_of_idle idle).symm.trans logged.answers
  written := logged.written
  unwritten := fun rid key node same => absurd same (idle' rid key node)
  guarded := logged.guarded
  decided := logged.decided.trans decided.symm
  live := fun still => logged.live fun finishing' => still (finishing.2 finishing')
  settled := fun finishing' => logged.settled (finishing.1 finishing')
  pending := logged.pending
  prepared := logged.prepared

/-- The server has let go of a transaction. -/
theorem close (logged : Logged server program transaction record) {phase : Phase}
    (finishing : transaction.Finishing)
    (closed : phase = .installed ∧ transaction.Committed ∨
      phase = .dropped ∧ ¬ transaction.Committed)
    (forgotten : server'.tidToNodes transaction.tid = none)
    (rdyToCommit : ∀ ts, server'.rdyToCommit transaction.tid = some ts →
      ts = transaction.startTs) :
    Logged server' program transaction { record with phase := phase } := by
  have idle : ∀ rid key node, transaction.stage ≠ .reading rid key node := by
    intro rid key node stage
    simp [Transaction.Finishing, stage] at finishing
  have shut : ¬ Open { record with phase := phase } := by
    rcases closed with ⟨rfl, -⟩ | ⟨rfl, -⟩ <;> simp [Open]
  exact
    { start := logged.start
      program := by
        rw [Transaction.waitsFor_of_idle idle, ← Transaction.waitsFor_of_idle idle]
        exact logged.program
      answers := by
        rw [Transaction.collected_of_idle idle, ← Transaction.collected_of_idle idle]
        exact logged.answers
      written := logged.written
      unwritten := fun rid key node same => absurd same (idle rid key node)
      guarded := logged.guarded
      decided := by rcases closed with ⟨rfl, holds⟩ | ⟨rfl, fails⟩ <;> simp [Record.Decided, *]
      live := fun still => absurd forgotten (still finishing)
      settled := fun _ _ unsettled => absurd unsettled shut
      pending := fun unsettled => absurd unsettled shut
      prepared := rdyToCommit }

/-- `finalize` ends a transaction that the server has let go of. -/
theorem finalized (logged : Logged server program transaction record)
    (finishing : transaction.Finishing) (forgotten : server.tidToNodes transaction.tid = none)
    (known : server'.tidToNodes transaction.tid = server.tidToNodes transaction.tid)
    (pendWrites : server'.pendWrites transaction.tid = none ∨
      server'.pendWrites transaction.tid = server.pendWrites transaction.tid)
    (rdyToCommit : server'.rdyToCommit transaction.tid = none) :
    Logged server' program transaction record := by
  have idle : ∀ rid key node, transaction.stage ≠ .reading rid key node := by
    intro rid key node stage
    simp [Transaction.Finishing, stage] at finishing
  refine
    { logged with
      program := ?_
      answers := ?_
      live := fun still => absurd (known.trans forgotten) (still finishing)
      settled := fun _ _ => logged.settled finishing forgotten
      pending := fun unsettled => ?_
      prepared := by simp [rdyToCommit] }
  · rw [Transaction.waitsFor_of_idle idle, ← Transaction.waitsFor_of_idle idle]
    exact logged.program
  · rw [Transaction.collected_of_idle idle, ← Transaction.collected_of_idle idle]
    exact logged.answers
  · have silent := logged.settled finishing forgotten unsettled
    rcases pendWrites with none' | same
    · rw [none', Option.getD_none, eq_comm, ← List.map_eq_nil_iff (f := (·.1))]
      refine List.eq_nil_iff_forall_not_mem.2 fun key member => ?_
      exact lastWritten_ne_none.2 member (silent key)
    · rw [same]
      exact logged.pending unsettled

/-- What `finalize` leaves in the store are the writes of the transaction at its start. -/
theorem get_finalize (logged : Logged server program transaction record) (unsettled : Open record)
    (positive : 1 ≤ transaction.startTs)
    (unprepared : server.rdyToCommit transaction.tid = none →
      server.pendWrites transaction.tid = none)
    (store : server'.store = server.store) (pendWrites : server'.pendWrites = server.pendWrites)
    (rdyToCommit : server'.rdyToCommit = server.rdyToCommit) (vote : Bool) (key ts : Nat) :
    (server'.finalize transaction.tid vote).get key ts =
      if vote = true ∧ ts = transaction.startTs then
        (transaction.pendWrites key).or (server.get key ts)
      else server.get key ts := by
  rcases Nat.eq_zero_or_pos ts with rfl | later
  · rw [if_neg fun both => absurd both.2 (by omega)]
    rfl
  · have pending : lastWrite ((server.pendWrites transaction.tid).getD []) =
        transaction.pendWrites := by
      rw [logged.pending unsettled, lastWrite_written, logged.written]
    rw [SimpleTServer.get_eq _ later, SimpleTServer.get_eq _ later, version_finalize,
      rdyToCommit, pendWrites, pending,
      show server'.version key ts = server.version key ts by
        simp only [SimpleTServer.version, store]]
    cases ready : server.rdyToCommit transaction.tid with
    | none =>
        have silent := logged.silent unsettled (unprepared ready) key
        rw [logged.written] at silent
        simp [silent]
    | some last =>
        obtain rfl := logged.prepared last ready
        simp [eq_comm]

end Logged

theorem touches_finalize (fresh : server.replies rid = none) (tid : Nat) (vote : Bool)
    (reply : Reply) : Touches server ((server.finalize tid vote).replied rid reply) rid tid := by
  obtain ⟨store, pendWrites, rdyToCommit, same, pend, ready, -⟩ := finalize_eq server tid vote
  have before : Touches server
      { server with store := store, pendWrites := pendWrites, rdyToCommit := rdyToCommit }
      rid tid :=
    { Touches.refl server rid tid with
      pendWrites := pend
      rdyToCommit := ready }
  rw [same]
  exact before.reply fresh reply

theorem touches_takenUp (mapper : Nat → Nat) (server : SimpleTServer)
    (rid event tid startTs key : Nat) :
    Touches server (server.takenUp mapper rid event tid startTs key) rid tid := by
  refine
    { Touches.refl server rid tid with
      known := fun other differs => Function.update_of_ne differs ..
      events := fun other read made => ?_ }
  by_cases same : other = event
  · subst same
    simp only [SimpleTServer.takenUp, SimpleTServer.setEvent, Function.update_self,
      Option.some.injEq] at made
    exact .inl (by rw [← made])
  · exact .inr ⟨read, by simpa [SimpleTServer.takenUp, SimpleTServer.setEvent, same] using made,
      rfl⟩

/-- The keys that a `TP1C` locks are claimed one after another, until one is not free. -/
theorem exists_locks {manager manager' : AVLTreeLockManager} {keys : List Nat} {tid : Nat}
    {res : Bool} (realizes : Realizes manager state.claims)
    (here : state.records tid = some record) (active : record.phase = .active)
    (bound : record.start < uintMax)
    (wrote : ∀ key ∈ keys, lastWritten record.log key ≠ none)
    (locked :
      SimpleTServer.lockKeys tid record.start record.start keys manager = .ok (manager', res)) :
    ∃ state', Relation.ReflTransGen Step state state' ∧ Realizes manager' state'.claims ∧
      state'.versions = state.versions ∧ state'.records = state.records ∧
      (∀ key, state.claims key record.start = .writing tid →
        state'.claims key record.start = .writing tid) ∧
      (res = true → ∀ key ∈ keys, state'.claims key record.start = .writing tid) := by
  induction keys generalizing manager state with
  | nil =>
      obtain ⟨rfl, rfl⟩ := Prod.mk.inj (Except.ok.inj locked)
      exact ⟨state, .refl, realizes, rfl, rfl, fun _ claimed => claimed, by simp⟩
  | cons key keys ih =>
      obtain ⟨⟨manager₁, res₁⟩, returned, rest⟩ := exists_of_bind locked
      obtain ⟨lock, covering, rfl, realizes₁⟩ := realizes.point bound returned
      cases passes : lock.status.passes false with
      | false =>
          simp only [passes, Bool.false_eq_true, if_false] at rest realizes₁
          obtain ⟨rfl, rfl⟩ := Prod.mk.inj (Except.ok.inj rest)
          exact ⟨state, .refl, realizes₁, rfl, rfl, fun _ claimed => claimed, by simp⟩
      | true =>
          simp only [passes, if_true] at rest realizes₁
          replace realizes₁ : Realizes manager₁ (state.lock tid key record.start).claims :=
            realizes₁
          have free := realizes.eq_free covering passes
          have step : Step state (state.lock tid key record.start) :=
            .lock here active (wrote key List.mem_cons_self) free
          have claims : ∀ other, (state.lock tid key record.start).claims other record.start =
              if other = key then .writing tid else state.claims other record.start := by
            intro other
            by_cases same : other = key
            · subst same
              simp [State.lock, changeAt, free, Claim.reserve]
            · simp [State.lock, changeAt, same]
          obtain ⟨state', steps, realizes', versions, records, kept, all⟩ :=
            ih realizes₁ here (fun other member => wrote other (List.mem_cons_of_mem _ member)) rest
          refine ⟨state', .head step steps, realizes', versions, records,
            fun other claimed => kept other ?_, fun granted other member => ?_⟩
          · rw [claims, claimed, ite_self]
          · rcases List.mem_cons.1 member with rfl | later
            · exact kept other (by rw [claims, if_pos rfl])
            · exact all granted other later

/-- A server that has let go of a transaction. -/
def letGo (server : SimpleTServer) (tid : Nat)
    (manager : AVLTreeLockManager) : SimpleTServer :=
  { server with
    tidToNodes := Function.update server.tidToNodes tid none
    lockManager := manager }

/-! ## The steps without a request -/

namespace Mirrors

/-- A transaction goes on without a request. -/
theorem store (coherent : Coherent world)
    (mirrors : Mirrors programs world.transactions world.server state)
    (present : world.transactions id = some transaction)
    (here : state'.records transaction.tid = some record)
    (logged : Logged world.server program transaction' record)
    (tid : transaction'.tid = transaction.tid)
    (answered : ∀ rid key node, transaction.stage = .reading rid key node →
      world.server.replies rid ≠ none)
    (idle : ∀ rid key node, transaction'.stage ≠ .reading rid key node)
    (claims : state'.claims = state.claims) (versions : state'.versions = state.versions)
    (records : ∀ other, other ≠ transaction.tid → state'.records other = state.records other) :
    Mirrors (Function.update programs id program) (world.store id transaction').transactions
      world.server state' :=
  mirrors.change present here logged tid (.refl _ (world.sent + 1) _) (fun _ _ => rfl)
    coherent.fresh (fun _ _ made => made) answered (claims ▸ mirrors.realizes)
    (versions ▸ mirrors.versions) records (fun _ _ _ stage => absurd stage (idle _ _ _))
    fun _ _ made => .inl made

/-- The same without a step of the protocol. -/
theorem stay (coherent : Coherent world)
    (mirrors : Mirrors programs world.transactions world.server state)
    (present : world.transactions id = some transaction) (tid : transaction'.tid = transaction.tid)
    (answered : ∀ rid key node, transaction.stage = .reading rid key node →
      world.server.replies rid ≠ none)
    (idle : ∀ rid key node, transaction'.stage ≠ .reading rid key node)
    (logged : ∀ record, Logged world.server (programs id) transaction record →
      Logged world.server (programs id) transaction' record) :
    Mirrors programs (world.store id transaction').transactions world.server state := by
  obtain ⟨record, here, old⟩ := mirrors.logged id transaction present
  rw [← Function.update_eq_self id programs]
  exact mirrors.store coherent present here (logged record old) tid answered idle rfl rfl
    fun _ _ => rfl

theorem ready (coherent : Coherent world)
    (mirrors : Mirrors programs world.transactions world.server state)
    (found : world.ready id = .ok transaction) :
    Mirrors programs (world.store id transaction).transactions world.server state := by
  obtain ⟨stage, current, proceeds, collected⟩ := proceeds_ready found
  refine mirrors.stay coherent proceeds.present proceeds.tid proceeds.answered (by simp [stage])
    fun record logged => ?_
  rcases collected with rfl | ⟨rid, key, node, value, status, reading, replied, rfl⟩
  · exact logged
  · exact logged.collect reading replied

/-- A transaction begins, with an ID that no other has. -/
theorem start {process tid startTs : Nat} (coherent : Coherent world)
    (mirrors : Mirrors programs world.transactions world.server state)
    (distinct : ∀ id < world.begun, (world.transactions id).map (·.tid) ≠ some tid)
    (positive : 1 ≤ startTs) (idle : programs world.begun = [])
    (stepped : world.step getNode (.start process tid startTs) = .ok world') :
    Matched programs state world world' := by
  obtain rfl := Except.ok.inj stepped
  have other : ∀ id transaction, world.transactions id = some transaction →
      transaction.tid ≠ tid := by
    intro id transaction present same
    exact distinct id (coherent.begun id (by simp [present])) (by simp [present, same])
  have new : state.records tid = none := by
    by_contra some'
    obtain ⟨id, transaction, present, same⟩ := mirrors.known tid some'
    exact other id transaction present same
  have nothing := coherent.unknown tid other
  refine ⟨_, .single (.begin new positive), id,
    { realizes := mirrors.realizes
      versions := mirrors.versions
      distinct := fun first second current current' there there' same => ?_
      known := fun holder some' => ?_
      logged := fun id current there => ?_
      asked := fun id current rid key node there stage => ?_
      pending := fun event read made unanswered => ?_ }⟩
  · rcases World.start_cases there with ⟨rfl, rfl⟩ | old <;>
      rcases World.start_cases there' with ⟨rfl, rfl⟩ | old'
    · rfl
    · exact absurd same.symm (other _ _ old')
    · exact absurd same (other _ _ old)
    · exact mirrors.distinct _ _ _ _ old old' same
  · by_cases same : holder = tid
    · exact ⟨world.begun, _, Function.update_self .., same.symm⟩
    · obtain ⟨id, current, there, owner⟩ := mirrors.known holder (by
        simpa [State.put, same] using some')
      exact ⟨id, current, coherent.start_of_ne there, owner⟩
  · rcases World.start_cases there with ⟨rfl, rfl⟩ | old
    · refine ⟨_, State.put_self, ?_⟩
      have written : world.server.pendWrites tid = none := not_not.1 nothing.written.1
      have prepared : world.server.rdyToCommit tid = none := not_not.1 nothing.prepared.1
      refine .of_active rfl id id rfl ?_ rfl rfl (by simp [Transaction.new])
        (by simp [Record.new]) ?_ ?_
      · rw [idle]
        rfl
      · simp [Transaction.new, written, Record.new]
      · simp [Transaction.new, prepared]
    · obtain ⟨record, here, logged⟩ := mirrors.logged id current old
      exact ⟨record, State.put_of_ne here (other _ _ old), logged⟩
  · rcases World.start_cases there with ⟨rfl, rfl⟩ | old
    · simp [Transaction.new] at stage
    · exact mirrors.asked id current rid key node old stage
  · obtain ⟨⟨id, current, node, there, owner, stage⟩, record, here, guards⟩ :=
      mirrors.pending event read made unanswered
    exact ⟨⟨id, current, node, coherent.start_of_ne there, owner, stage⟩, record,
      State.put_of_ne here (owner ▸ (other _ _ there)), guards⟩

/-- `read` returns what the transaction has written itself. -/
theorem readOwn (coherent : Coherent world)
    (mirrors : Mirrors programs world.transactions world.server state)
    (present : world.transactions id = some transaction) (stage : transaction.stage = .active)
    (own : transaction.pendWrites key = some value) :
    Matched (Function.update programs id (programs id ++ [.read key])) state world
      (world.store id
        { transaction with returned := transaction.returned ++ [(key, some value)] }) := by
  obtain ⟨record, here, logged⟩ := mirrors.logged id transaction present
  have own' : lastWritten record.log key = some value := by rw [logged.written, own]
  refine ⟨_, .single (.readOwn here (logged.active_of_active stage) own'), fun exact => exact,
    mirrors.store coherent present State.put_self (logged.readOwn stage) rfl (by simp [stage])
      (by simp [stage]) rfl rfl fun other differs => Function.update_of_ne differs ..⟩

/-- `commit` or `abort` is called; a transaction that has written nothing is decided at once. -/
theorem finish {committing : Bool} (coherent : Coherent world)
    (mirrors : Mirrors programs world.transactions world.server state)
    (stepped : world.step getNode (.finish id committing) = .ok world') :
    Matched programs state world world' := by
  obtain ⟨transaction, found, rfl⟩ := finish_cases stepped
  obtain ⟨stage, coherent'⟩ := coherent.ready found
  have mirrors' := mirrors.ready coherent found
  have present := World.store_self world id transaction
  obtain ⟨record, here, logged⟩ := mirrors'.logged id transaction present
  have active := logged.active_of_active stage
  rw [← World.store_store world id transaction, ← Function.update_eq_self id programs]
  by_cases decides : committing = true ∧ transaction.writeNodes = ∅
  · have accounted := coherent'.accounted _ _ present
    simp only [Transaction.Accounted, stage] at accounted
    have silent := logged.silent (.inl active) (not_not.1 fun written => by
      simpa [decides.2] using accounted.2.written.1 written)
    refine ⟨_, .single (.decide here active fun key wrote => absurd (silent key) wrote),
      fun exact => exact,
      mirrors'.store coherent' present State.put_self
        (logged.proceed _ (by simp [stage]) (by simp) rfl rfl logged.prepared (.inl active)
          (.inr rfl) ?_ ?_)
        rfl (by simp [stage]) (by simp) rfl rfl
        fun other differs => Function.update_of_ne differs ..⟩
    · simp [Transaction.Committed, decides]
    · simp [Transaction.Finishing]
  · refine ⟨state, .refl, fun exact => exact, mirrors'.store coherent' present here
      (logged.proceed _ (by simp [stage]) (by simp) rfl rfl logged.prepared (.inl active)
        (.inl active) ?_ ?_)
      rfl (by simp [stage]) (by simp) rfl rfl fun _ _ => rfl⟩
    · simp [Transaction.Committed, decides, active]
    · simp [Transaction.Finishing]

/-- The loop for `TP1C` ends. -/
theorem votes {committing vote : Bool} (coherent : Coherent world)
    (mirrors : Mirrors programs world.transactions world.server state)
    (present : world.transactions id = some transaction)
    (stage : transaction.stage = .phaseOne committing ∅ vote) :
    Mirrors programs
      (world.store id
        { transaction with
          stage := .phaseTwo committing (committing && vote) transaction.nodes }).transactions
      world.server state := by
  refine mirrors.stay coherent present rfl (by simp [stage]) (by simp) fun record logged => ?_
  have unsettled : Open record :=
    logged.live fun finishing => by simp [Transaction.Finishing, stage] at finishing
  refine logged.proceed _ (by simp [stage]) (by simp) rfl rfl logged.prepared unsettled unsettled
    ?_ fun _ forgotten => ?_
  · have decided := logged.decided
    rcases unsettled with phase | phase <;>
      simpa [Record.Decided, Transaction.Committed, stage, phase] using decided
  · have accounted := coherent.accounted _ _ present
    simp only [Transaction.Accounted, stage] at accounted
    obtain ⟨-, ⟨none', knows⟩ | ⟨-, -, -, knows⟩⟩ := accounted
    · refine logged.silent unsettled (not_not.1 fun written => ?_)
      simpa [← none'] using knows.written.1 written
    · exact absurd forgotten (knows.known.2 trivial)

/-- The loop for `TP2C` ends. -/
theorem ended {committing vote : Bool} (coherent : Coherent world)
    (mirrors : Mirrors programs world.transactions world.server state)
    (present : world.transactions id = some transaction)
    (stage : transaction.stage = .phaseTwo committing vote ∅) :
    Mirrors programs
      (world.store id { transaction with stage := .ended committing vote }).transactions
      world.server state := by
  refine mirrors.stay coherent present rfl (by simp [stage]) (by simp) fun record logged => ?_
  exact logged.restage _ (by simp [stage]) (by simp) (by simp [Transaction.Committed, stage])
    (by simp [Transaction.Finishing, stage])

/-! ## The steps with a request -/

/-- A request is handled that runs no read event. -/
theorem serve (coherent : Coherent world)
    (mirrors : Mirrors programs world.transactions world.server state)
    (present : world.transactions id = some transaction)
    (here : state'.records transaction.tid = some record)
    (logged : Logged server' program transaction' record)
    (tid : transaction'.tid = transaction.tid)
    (stage : ∀ rid key node, transaction.stage ≠ .reading rid key node)
    (idle : ∀ rid key node, transaction'.stage ≠ .reading rid key node)
    (touches : Touches world.server server' (world.sent + 1) transaction.tid)
    (replies : ∀ other, other ≠ world.sent + 1 →
      server'.replies other = world.server.replies other)
    (readEvents : server'.readEvents = world.server.readEvents)
    (realizes : Realizes server'.lockManager state'.claims)
    (versions : ∀ key ts value, server'.get key ts = some value →
      state'.versions key ts = some value)
    (records : ∀ other, other ≠ transaction.tid → state'.records other = state.records other)
    (more : List (Nat × Request)) :
    Mirrors (Function.update programs id program)
      (world.after server' id transaction' more).transactions server' state' :=
  mirrors.change present here logged tid touches replies coherent.fresh
    (fun _ _ made => by rw [readEvents, made])
    (fun rid key node reading => absurd reading (stage rid key node)) realizes versions records
    (fun rid key node reading => absurd reading (idle rid key node))
    fun _ _ made => .inl (readEvents ▸ made)

/-- The server takes up a read. -/
theorem takenUp (coherent : Coherent world)
    (mirrors : Mirrors programs world.transactions world.server state)
    (present : world.transactions id = some transaction) (stage : transaction.stage = .active)
    (unwritten : transaction.pendWrites key = none) (new : world.server.readEvents event = none) :
    Mirrors (Function.update programs id (programs id ++ [.read key]))
      (Function.update world.transactions id
        (some { transaction with stage := .reading (world.sent + 1) key (getNode key) }))
      (world.server.takenUp getNode (world.sent + 1) event transaction.tid transaction.startTs key)
      state := by
  obtain ⟨record, here, logged⟩ := mirrors.logged id transaction present
  have asked : Logged (world.server.takenUp getNode (world.sent + 1) event transaction.tid
      transaction.startTs key) (programs id ++ [.read key])
      { transaction with stage := .reading (world.sent + 1) key (getNode key) } record :=
    logged.ask stage unwritten coherent.unsent rfl rfl
  refine mirrors.change present here asked rfl (touches_takenUp ..) (fun _ _ => rfl)
    coherent.fresh (fun other read made => ?_) (by simp [stage]) mirrors.realizes mirrors.versions
    (fun _ _ => rfl) (fun rid key' node same => ?_) fun other read made => ?_
  · have differs : other ≠ event := by
      rintro rfl
      simp [new] at made
    simpa [SimpleTServer.takenUp, SimpleTServer.setEvent, differs] using made
  · obtain ⟨rfl, rfl, -⟩ := Stage.reading.inj same
    exact ⟨event, _, Function.update_self .., rfl⟩
  · by_cases same : other = event
    · subst same
      obtain rfl : _ = read := by
        simpa [SimpleTServer.takenUp, SimpleTServer.setEvent] using made
      exact .inr ⟨rfl, logged.start.symm, _, rfl⟩
    · left
      simpa [SimpleTServer.takenUp, SimpleTServer.setEvent, same] using made

theorem read (coherent : Coherent world)
    (mirrors : Mirrors programs world.transactions world.server state)
    (stepped : world.step getNode (.read id key event) = .ok world') :
    Matched (Function.update programs id (programs id ++ [.read key])) state world world' := by
  obtain ⟨transaction, found, cases⟩ := read_cases stepped
  obtain ⟨stage, coherent'⟩ := coherent.ready found
  have mirrors' := mirrors.ready coherent found
  have present := World.store_self world id transaction
  rcases cases with ⟨value, own, rfl⟩ | ⟨server', unwritten, new, handled, rfl⟩
  · rw [← World.store_store world id transaction]
    exact mirrors'.readOwn coherent' present stage own
  · have timely := coherent'.timely _ _ present
    rw [← World.after_store world id transaction]
    cases handled with
    | read served unlocked ran =>
        have woken : Wakeful [event] (world.server.takenUp getNode (world.sent + 1) event
            transaction.tid transaction.startTs key) :=
          coherent.wakeful.takenUp new coherent.unsent coherent.fresh ⟨timely.1, timely.2.le⟩
        obtain ⟨state', steps, sameWrites, mirrors''⟩ :=
          (mirrors'.takenUp coherent' present stage unwritten new).runRead woken ran
        refine ⟨state', steps, fun exact key ts => ?_, mirrors''⟩
        rw [sameWrites.versions, exact]
        exact (get_of_store (readsOnly_runRead ran).store key ts).symm

theorem write (coherent : Coherent world)
    (mirrors : Mirrors programs world.transactions world.server state)
    (stepped : world.step getNode (.write id key value) = .ok world') :
    Matched (Function.update programs id (programs id ++ [.write key value])) state world
      world' := by
  obtain ⟨transaction, server', found, handled, rfl⟩ := write_cases stepped
  obtain ⟨stage, coherent'⟩ := coherent.ready found
  have mirrors' := mirrors.ready coherent found
  have present := World.store_self world id transaction
  obtain ⟨record, here, logged⟩ := mirrors'.logged id transaction present
  have touches := handled.touches
  rw [← World.after_store world id transaction]
  cases handled with
  | write served unlocked fresh =>
      refine ⟨_, .single (.write here (logged.active_of_active stage) key value),
        fun exact => exact,
        mirrors'.serve coherent' present State.put_self (logged.write stage ?_ (by rfl) _) rfl
          (by simp [stage]) (by simp [stage]) touches
          (fun other differs => Function.update_of_ne differs ..) rfl mirrors'.realizes
          mirrors'.versions (fun other differs => Function.update_of_ne differs ..) _⟩
      simp [SimpleTServer.replied, SimpleTServer.add]
  | writeRefused refused fresh =>
      refine absurd ?_ refused
      simp [coherent.nodes, getNode]

/-- A round of the loop for `TP1C`; a transaction that gets all its locks is decided. -/
theorem phaseOne {committing vote : Bool} {remNodes nodes : Finset Nat} {vote' : Bool}
    (coherent : Coherent world)
    (mirrors : Mirrors programs world.transactions world.server state)
    (present : world.transactions id = some transaction)
    (stage : transaction.stage = .phaseOne committing remNodes vote) (remain : remNodes ≠ ∅)
    (handled : Handled getNode world.server (world.sent + 1) 0 unset
      (.p1c transaction.tid transaction.startTs transaction.startTs
        transaction.readNodes transaction.writeNodes) server')
    (replied : server'.replies (world.sent + 1) = some (.p1c nodes vote'))
    (more : List (Nat × Request)) :
    Matched programs state world
      (world.after server' id
        { transaction with
          stage := .phaseOne committing (remNodes \ nodes) (vote && vote') } more) := by
  obtain ⟨record, here, logged⟩ := mirrors.logged id transaction present
  have undecided : ¬ transaction.Committed := by simp [Transaction.Committed, stage, remain]
  have idle : ¬ transaction.Finishing := by simp [Transaction.Finishing, stage]
  have active := logged.active undecided fun finishing => absurd finishing idle
  have accounted := coherent.accounted _ _ present
  simp only [Transaction.Accounted, stage] at accounted
  obtain ⟨rfl, knows⟩ := accounted.2.resolve_right fun done => remain done.1
  have timely := coherent.timely _ _ present
  have touches := handled.touches
  rw [← Function.update_eq_self id programs]
  cases handled with
  | @p1c _ _ _ _ _ known _ res taken unlocked locked fresh =>
      obtain ⟨rfl, rfl⟩ := Reply.p1c.inj
        (Option.some.inj (replied.symm.trans (Function.update_self ..)))
      have none' : transaction.writeNodes \ (known ∪ transaction.readNodes ∪
          transaction.writeNodes) = ∅ :=
        Finset.sdiff_eq_empty_iff_subset.2 Finset.subset_union_right
      have keys : ∀ key, key ∈ world.server.getKeys transaction.tid ↔
          lastWritten record.log key ≠ none := by
        intro key
        rw [lastWritten_ne_none, ← logged.pending (.inl active), SimpleTServer.getKeys]
        cases world.server.pendWrites transaction.tid <;> rfl
      rw [← logged.start] at locked timely
      obtain ⟨state₁, steps, realizes, versions, records, -, all⟩ :=
        exists_locks mirrors.realizes here active timely.2 (fun key => (keys key).1) locked
      have here₁ : state₁.records transaction.tid = some record := records ▸ here
      have versions' : ∀ key ts value, world.server.get key ts = some value →
          state₁.versions key ts = some value := versions ▸ mirrors.versions
      have exact' : Exact world.server state → Exact world.server state₁ :=
        fun exact key ts => versions ▸ exact key ts
      rw [none']
      by_cases decides : committing = true ∧ vote = true ∧ vote' = true
      · have decide : Step state₁ (state₁.decide transaction.tid record) :=
          .decide here₁ active fun key wrote => all decides.2.2 key ((keys key).2 wrote)
        refine ⟨_, steps.tail decide, exact', mirrors.serve coherent present State.put_self
          (logged.proceed (.phaseOne committing ∅ (vote && vote')) (by simp [stage]) (by simp)
            (by rfl) (by rfl) ?_ (.inl active) (.inr rfl) ?_ ?_)
          rfl (by simp [stage]) (by simp) touches
          (fun other differs => Function.update_of_ne differs ..) rfl realizes versions'
          (fun other differs => ?_) more⟩
        · simp [SimpleTServer.replied, SimpleTServer.prepare]
        · simp [Transaction.Committed, decides]
        · simp [Transaction.Finishing]
        · rw [← records]
          exact Function.update_of_ne differs ..
      · refine ⟨_, steps, exact', mirrors.serve coherent present here₁
          (logged.proceed (.phaseOne committing ∅ (vote && vote')) (by simp [stage]) (by simp)
            (by rfl) (by rfl) ?_ (.inl active) (.inl active) ?_ ?_)
          rfl (by simp [stage]) (by simp) touches
          (fun other differs => Function.update_of_ne differs ..) rfl realizes versions'
          (fun other _ => by rw [records]) more⟩
        · simp [SimpleTServer.replied, SimpleTServer.prepare]
        · simpa [Transaction.Committed, active] using decides
        · simp [Transaction.Finishing]
  | p1cRefused refused unlocked fresh =>
      obtain ⟨rfl, rfl⟩ := Reply.p1c.inj
        (Option.some.inj (replied.symm.trans (Function.update_self ..)))
      have logged' : Logged
          ({ world.server with tidWriteMutex := true }.replied (world.sent + 1) (.p1c ∅ vote'))
          (programs id) transaction record :=
        logged.frame (fun _ => rfl) rfl rfl (by simp [stage])
      refine ⟨state, .refl, fun exact => exact, mirrors.serve coherent present here
        (logged'.restage (.phaseOne committing (transaction.writeNodes \ ∅) (vote && vote'))
          (by simp [stage]) (by simp) ?_ ?_)
        rfl (by simp [stage]) (by simp) touches
        (fun other differs => Function.update_of_ne differs ..) rfl mirrors.realizes
        mirrors.versions (fun _ _ => rfl) more⟩
      · simp [Transaction.Committed, stage, remain]
      · simp [Transaction.Finishing, stage]

/-- The locks of a transaction are frozen or given up. -/
theorem releases {contents : Nat → String} {committing vote : Bool} {remNodes : Finset Nat}
    {manager : AVLTreeLockManager} {events : Finset Nat} (coherent : Coherent world)
    (sound : Sound contents state)
    (mirrors : Mirrors programs world.transactions world.server state)
    (present : world.transactions id = some transaction)
    (stage : transaction.stage = .phaseTwo committing vote remNodes)
    (known : world.server.tidToNodes transaction.tid ≠ none)
    (sole : vote = false → world.server.lockManager.SoleHolder transaction.tid)
    (released : (if vote then world.server.lockManager.freeze transaction.tid
      else world.server.lockManager.unlock transaction.tid) = .ok (manager, events)) :
    ∃ state', Step state state' ∧
      (∀ key ts, state'.versions key ts =
        if vote = true ∧ ts = transaction.startTs then
          (transaction.pendWrites key).or (state.versions key ts)
        else state.versions key ts) ∧
      Mirrors programs world.transactions
        (letGo world.server transaction.tid manager) state' := by
  obtain ⟨record, here, logged⟩ := mirrors.logged id transaction present
  have finishing : transaction.Finishing := by simp [Transaction.Finishing, stage]
  have unsettled := logged.live fun _ => known
  have touches : Touches world.server (letGo world.server transaction.tid manager)
      (world.sent + 1) transaction.tid :=
    { Touches.refl world.server (world.sent + 1) transaction.tid with
      known := fun other differs => Function.update_of_ne differs .. }
  -- Whichever it is, no other transaction has changed.
  have changed : ∀ (state' : Protocol) (phase : Phase),
      state'.records transaction.tid = some { record with phase := phase } →
      (∀ other, other ≠ transaction.tid → state'.records other = state.records other) →
      Realizes manager state'.claims →
      (∀ key ts value, world.server.get key ts = some value →
        state'.versions key ts = some value) →
      (phase = .installed ∧ transaction.Committed ∨
        phase = .dropped ∧ ¬ transaction.Committed) →
      Mirrors programs world.transactions
        (letGo world.server transaction.tid manager) state' := by
    intro state' phase here' others realizes versions closed
    have closedLog : Logged (letGo world.server transaction.tid manager) (programs id) transaction
        { record with phase := phase } :=
      logged.close finishing closed (Function.update_self ..) logged.prepared
    have result := mirrors.change present here' closedLog rfl touches (fun _ _ => rfl)
      coherent.fresh (fun _ _ made => made) (by simp [stage]) realizes versions others
      (by simp [stage]) fun _ _ made => .inl made
    rwa [Function.update_eq_self, ← present, Function.update_eq_self] at result
  cases vote with
  | true =>
      have committed : transaction.Committed := by simp [Transaction.Committed, stage]
      have decided : record.phase = .decided := by
        rcases logged.decided.2 committed with decided | installed
        · exact decided
        · rcases unsettled with phase | phase <;> simp [phase] at installed
      refine ⟨state.install transaction.tid record, .install here decided, fun key ts => ?_,
        changed _ .installed State.put_self (fun other differs => Function.update_of_ne differs ..)
          (mirrors.realizes.freeze released) (fun key ts value known => ?_)
          (.inl ⟨rfl, committed⟩)⟩
      · simp [State.install, logged.start, logged.written]
      · have old := mirrors.versions key ts value known
        by_cases own : ts = record.start ∧ lastWritten record.log key ≠ none
        · obtain ⟨rfl, wrote⟩ := own
          have claimed := (sound.fits _ _ here).decided decided key wrote
          have written := sound.versions key record.start (by simp [old])
          simp [claimed] at written
        · by_cases start : ts = record.start
          · have unwritten : lastWritten record.log key = none :=
              not_not.1 fun wrote => own ⟨start, wrote⟩
            simp [State.install, unwritten, old]
          · simp [State.install, start, old]
  | false =>
      have undecided : ¬ transaction.Committed := by simp [Transaction.Committed, stage]
      have active := logged.active undecided fun _ => known
      exact ⟨state.drop transaction.tid record, .drop here active, by simp [State.drop],
        changed _ .dropped State.put_self (fun other differs => Function.update_of_ne differs ..)
          (mirrors.realizes.unlock (sole rfl) released) mirrors.versions
          (.inr ⟨rfl, undecided⟩)⟩

/-- A transaction that is finishing waits for no read. -/
theorem proper {committing vote : Bool} {remNodes : Finset Nat} (coherent : Coherent world)
    (mirrors : Mirrors programs world.transactions world.server state)
    (present : world.transactions id = some transaction)
    (stage : transaction.stage = .phaseTwo committing vote remNodes) :
    world.server.Proper (.p2c transaction.tid true) := by
  intro event read made owner unanswered
  obtain ⟨⟨other, current, node, there, owned, reading⟩, -⟩ :=
    mirrors.pending event read made unanswered
  obtain rfl := coherent.distinct _ _ _ _ there present (owned.trans owner)
  obtain rfl := Option.some.inj (present.symm.trans there)
  simp [stage] at reading

/-- A round of the loop for `TP2C`, with the reads that it wakes up. -/
theorem phaseTwo {contents : Nat → String} {committing vote : Bool} {remNodes nodes : Finset Nat}
    (coherent : Coherent world) (sound : Sound contents state)
    (mirrors : Mirrors programs world.transactions world.server state)
    (present : world.transactions id = some transaction)
    (stage : transaction.stage = .phaseTwo committing vote remNodes)
    (sole : vote = false → world.server.lockManager.SoleHolder transaction.tid)
    (handled : Handled getNode world.server (world.sent + 1) 0 false (.p2c transaction.tid vote)
      server')
    (more : List (Nat × Request)) :
    Matched programs state world
      (world.after server' id
        { transaction with stage := .phaseTwo committing vote (remNodes \ nodes) } more) := by
  obtain ⟨record, here, logged⟩ := mirrors.logged id transaction present
  have finishing : transaction.Finishing := by simp [Transaction.Finishing, stage]
  have accounted := coherent.accounted _ _ present
  simp only [Transaction.Accounted, stage] at accounted
  have touches := handled.touches
  cases handled with
  | @p2c _ _ listed manager events server₁ known unlocked released ran fresh =>
      have known' : world.server.tidToNodes transaction.tid ≠ none := by simp [known]
      have unsettled := logged.live fun _ => known'
      obtain ⟨state₁, step, versions₁, mirrors₁⟩ :=
        mirrors.releases coherent sound present stage known' sole released
      have waking : Wakeful (ascending events) (letGo world.server transaction.tid manager) := by
        obtain ⟨visit, lets, release⟩ := exists_letsGo coherent.wakeful.held.wellFormed released
        exact coherent.wakeful.released lets release (mirrors.proper coherent present stage)
      obtain ⟨state₂, steps, sameWrites, mirrors₂⟩ := mirrors₁.runEvents waking ran
      have reads := readsOnly_runEvents ran
      have forgotten : server₁.tidToNodes transaction.tid = none := by simp [reads.tidToNodes]
      have unprepared : world.server.rdyToCommit transaction.tid = none →
          world.server.pendWrites transaction.tid = none := by
        intro unready
        rcases accounted with ⟨-, -, -, knows⟩ | knows
        · by_contra pending
          exact knows.prepared.2 (knows.written.1 pending) unready
        · exact absurd known' knows.known.1
      have get := logged.get_finalize unsettled (coherent.timely _ _ present).1 unprepared
        reads.store reads.pendWrites reads.rdyToCommit vote
      obtain ⟨store, pendWrites, rdyToCommit, same, pend, ready, unready, pending⟩ :=
        finalize_eq server₁ transaction.tid vote
      obtain ⟨record₂, here₂, logged₂⟩ := mirrors₂.logged id transaction present
      have closed : Logged ((server₁.finalize transaction.tid vote).replied (world.sent + 1)
          (.p2c listed)) (programs id) transaction record₂ := by
        refine logged₂.finalized finishing forgotten ?_ ?_ ?_
        · rw [same]
          rfl
        · rw [same]
          simp only [SimpleTServer.replied, pending]
          split
          · exact .inr rfl
          · exact .inl rfl
        · rw [same]
          exact unready
      have restaged := closed.restage (.phaseTwo committing vote (remNodes \ nodes))
        (by simp [stage]) (by simp) (by simp [Transaction.Committed, stage])
        (by simp [Transaction.Finishing, stage])
      have final : ∀ key ts, state₂.versions key ts =
          if vote = true ∧ ts = transaction.startTs then
            (transaction.pendWrites key).or (state.versions key ts)
          else state.versions key ts := fun key ts => by
            rw [sameWrites.versions, versions₁]
      rw [← Function.update_eq_self id programs]
      refine ⟨state₂, .head step steps, fun exact key ts => ?_,
        mirrors₂.change present here₂ restaged rfl
          (touches_finalize fresh transaction.tid vote _) (fun other differs => ?_)
          (fun event read made => ?_) (fun event read made => ?_) (by simp [stage]) ?_
          (fun key ts value known => ?_) (fun _ _ => rfl) (by simp) (fun event read made => ?_)⟩
      · rw [final, exact]
        exact (get key ts).symm
      · exact (Function.update_of_ne differs ..).trans (by rw [same])
      · obtain ⟨read₀, old, source⟩ := reads.exists_source made
        rw [← show read₀.rid = read.rid from congrArg Prod.fst source]
        exact coherent.fresh event read₀ old
      · rw [same]
        exact made
      · rw [same]
        exact mirrors₂.realizes
      · replace known : (server₁.finalize transaction.tid vote).get key ts = some value := known
        rw [get] at known
        rw [final]
        split_ifs at known ⊢ with own
        · cases wrote : transaction.pendWrites key with
          | none =>
              rw [wrote] at known
              exact mirrors.versions key ts value known
          | some last => simpa [wrote] using known
        · exact mirrors.versions key ts value known
      · rw [same] at made
        exact .inl made
  | p2cRefused refused unlocked fresh =>
      have logged' : Logged
          ({ world.server with tidMutex := true }.replied (world.sent + 1) (.p2c ∅))
          (programs id) transaction record :=
        logged.frame (fun _ => rfl) rfl rfl (by simp [stage])
      have restaged := logged'.restage (.phaseTwo committing vote (remNodes \ nodes))
        (by simp [stage]) (by simp) (by simp [Transaction.Committed, stage])
        (by simp [Transaction.Finishing, stage])
      rw [← Function.update_eq_self id programs]
      exact ⟨state, .refl, fun exact => exact, mirrors.serve coherent present here restaged rfl
        (by simp [stage]) (by simp) touches (fun other differs => Function.update_of_ne differs ..)
        rfl mirrors.realizes mirrors.versions (fun _ _ => rfl) more⟩

end Mirrors

end Mvtx.Cluster
