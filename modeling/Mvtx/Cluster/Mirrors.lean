import Mvtx.Cluster.Coherent
import Mvtx.Lib.Serializable
import Mvtx.Lock.Claims
import Mvtx.Server.Versions

/-!
# What the server holds, seen from the protocol

Multiversion timestamp ordering, as it stands in the library, knows of claims,
versions and logs.  Here are its claims found in the lock manager, its versions
in the store, and the log of a transaction in what the Coordinator and the
server have kept of it: `Mirrors`.

The library installs the versions of a transaction when its `TP2C` is taken up.
The server does it after the reads have run which the `TP2C` wakes up, so within
the handler some versions of the protocol are not in the store yet.
-/

namespace Mvtx.Cluster

open Lib Lib.Serial Lib.Multiversion Lock Server

/-- The protocol with the transaction IDs, keys, timestamps and values of the server. -/
abbrev Protocol := Multiversion.State Nat Nat Nat String

/-- What the protocol knows of a transaction. -/
abbrev Account := Multiversion.Record Nat Nat String

/-- `commit` has been called, and has got all locks that the transaction needs. -/
def Transaction.Committed (transaction : Transaction) : Prop :=
  match transaction.stage with
  | .active | .reading _ _ _ => False
  | .phaseOne committing remNodes vote => committing = true ∧ vote = true ∧ remNodes = ∅
  | .phaseTwo _ vote _ | .ended _ vote => vote = true

instance (transaction : Transaction) : Decidable transaction.Committed :=
  match transaction with
  | ⟨_, _, _, _, _, _, .active⟩ | ⟨_, _, _, _, _, _, .reading _ _ _⟩ =>
      inferInstanceAs (Decidable False)
  | ⟨_, _, _, _, _, _, .phaseOne committing remNodes vote⟩ =>
      inferInstanceAs (Decidable (committing = true ∧ vote = true ∧ remNodes = ∅))
  | ⟨_, _, _, _, _, _, .phaseTwo _ vote _⟩ | ⟨_, _, _, _, _, _, .ended _ vote⟩ =>
      inferInstanceAs (Decidable (vote = true))

/-- The votes are in. -/
def Transaction.Finishing (transaction : Transaction) : Prop :=
  match transaction.stage with
  | .active | .reading _ _ _ | .phaseOne _ _ _ => False
  | .phaseTwo _ _ _ | .ended _ _ => True

/-- The read that a transaction waits for. -/
def Transaction.waitsFor (server : SimpleTServer) (transaction : Transaction) :
    List (Operation Nat String) :=
  match transaction.stage with
  | .reading rid key _ => if server.replies rid = none then [.read key] else []
  | .active | .phaseOne _ _ _ | .phaseTwo _ _ _ | .ended _ _ => []

/-- What the reads of a transaction have returned, one more if a reply is still to be collected. -/
def Transaction.collected (server : SimpleTServer) (transaction : Transaction) :
    List (Nat × Option String) :=
  match transaction.stage with
  | .reading rid key _ =>
      match server.replies rid with
      | some (.read value status) =>
          transaction.returned ++ [(key, if status then some value else none)]
      | _ => transaction.returned
  | .active | .phaseOne _ _ _ | .phaseTwo _ _ _ | .ended _ _ => transaction.returned

/-- Neither installed nor dropped. -/
def Open (record : Account) : Prop :=
  record.phase = .active ∨ record.phase = .decided

/-- What the protocol knows of a transaction agrees with the Coordinator and the server. -/
structure Logged (server : SimpleTServer) (program : List (Operation Nat String))
    (transaction : Transaction) (record : Account) : Prop where
  start : record.start = transaction.startTs
  guarded : ∀ key, (record.guarded key).Nonempty → Operation.read key ∈ program
  program : program = record.log.map Entry.operation ++ transaction.waitsFor server
  answers : transaction.collected server =
    (record.log.filterMap Entry.answer).map fun answer => (answer.1, some answer.2)
  written : lastWritten record.log = transaction.pendWrites
  unwritten : ∀ rid key node, transaction.stage = .reading rid key node →
    transaction.pendWrites key = none
  decided : record.Decided ↔ transaction.Committed
  live : (transaction.Finishing → server.tidToNodes transaction.tid ≠ none) → Open record
  settled : transaction.Finishing → server.tidToNodes transaction.tid = none → Open record →
    ∀ key, lastWritten record.log key = none
  pending : Open record →
    (server.pendWrites transaction.tid).getD [] = record.log.filterMap Entry.written
  prepared : ∀ ts, server.rdyToCommit transaction.tid = some ts → ts = transaction.startTs

/-- A read that has not been answered guards all from its start timestamp on. -/
structure Pending (transactions : Nat → Option Transaction) (state : Protocol)
    (read : ReadEvent) : Prop where
  reader : ∃ id transaction node, transactions id = some transaction ∧
    transaction.tid = read.tid ∧ transaction.stage = .reading read.rid read.key node
  guards : ∃ record, state.records read.tid = some record ∧ read.startTs ≤ record.start ∧
    ∀ ts, read.startTs ≤ ts → ts < record.start → ts ∈ record.guarded read.key

/-- The server and the Coordinators, which run some programs, are in a state of the protocol. -/
structure Mirrors (programs : Nat → List (Operation Nat String))
    (transactions : Nat → Option Transaction) (server : SimpleTServer) (state : Protocol) :
    Prop where
  realizes : Realizes server.lockManager state.claims
  versions : ∀ key ts value, server.get key ts = some value → state.versions key ts = some value
  distinct : ∀ id id' transaction transaction', transactions id = some transaction →
    transactions id' = some transaction' → transaction.tid = transaction'.tid → id = id'
  known : ∀ tid, state.records tid ≠ none →
    ∃ id transaction, transactions id = some transaction ∧ transaction.tid = tid
  logged : ∀ id transaction, transactions id = some transaction →
    ∃ record, state.records transaction.tid = some record ∧
      Logged server (programs id) transaction record
  asked : ∀ id transaction rid key node, transactions id = some transaction →
    transaction.stage = .reading rid key node →
    ∃ event read, server.readEvents event = some read ∧ read.source = (rid, transaction.tid, key)
  pending : ∀ event read, server.readEvents event = some read →
    server.replies read.rid = none → Pending transactions state read

/-- What reads do not change: the versions, and the claims of writers. -/
structure SameWrites (state state' : Protocol) : Prop where
  versions : state'.versions = state.versions
  writing : ∀ key ts tid, state'.claims key ts = .writing tid ↔ state.claims key ts = .writing tid
  written : ∀ key ts, state'.claims key ts = .written ↔ state.claims key ts = .written

theorem SameWrites.refl (state : Protocol) : SameWrites state state :=
  ⟨rfl, fun _ _ _ => Iff.rfl, fun _ _ => Iff.rfl⟩

theorem SameWrites.trans {state state' state'' : Protocol} (same : SameWrites state state')
    (same' : SameWrites state' state'') : SameWrites state state'' where
  versions := same'.versions.trans same.versions
  writing := fun key ts tid => (same'.writing key ts tid).trans (same.writing key ts tid)
  written := fun key ts => (same'.written key ts).trans (same.written key ts)

/-- The versions of the protocol are the ones in the store, all of them. -/
def Exact (server : SimpleTServer) (state : Protocol) : Prop :=
  ∀ key ts, state.versions key ts = server.get key ts

/-! ## The log of a transaction -/

/-- The last write of a log is the last of its writes. -/
theorem lastWrite_written (log : List (Entry Nat String)) :
    lastWrite (log.filterMap Entry.written) = lastWritten log := by
  induction log using List.reverseRecOn with
  | nil => rfl
  | append_singleton log entry ih =>
      cases entry with
      | read key value =>
          rw [List.filterMap_append, lastWritten_append_read, ← ih]
          exact congrArg lastWrite (List.append_nil _)
      | write key value =>
          rw [List.filterMap_append, lastWritten_append_write, ← ih]
          exact lastWrite_append _ _ _

theorem lastWritten_ne_none {log : List (Entry Nat String)} {key : Nat} :
    lastWritten log key ≠ none ↔ key ∈ (log.filterMap Entry.written).map (·.1) := by
  rw [← lastWrite_written]
  exact lastWrite_ne_none

theorem get_of_store {server server' : SimpleTServer} (same : server'.store = server.store)
    (key ts : Nat) : server'.get key ts = server.get key ts := by
  simp only [SimpleTServer.get, same]

variable {server server' : SimpleTServer} {program : List (Operation Nat String)}
  {transaction transaction' : Transaction} {record record' : Account} {rid event : Nat}

theorem Transaction.waitsFor_congr
    (replies : ∀ rid key node, transaction.stage = .reading rid key node →
      server'.replies rid = server.replies rid) :
    transaction.waitsFor server' = transaction.waitsFor server := by
  unfold Transaction.waitsFor
  split
  · next stage => rw [replies _ _ _ stage]
  · rfl
  · rfl
  · rfl
  · rfl

theorem Transaction.collected_congr
    (replies : ∀ rid key node, transaction.stage = .reading rid key node →
      server'.replies rid = server.replies rid) :
    transaction.collected server' = transaction.collected server := by
  unfold Transaction.collected
  split
  · next stage => rw [replies _ _ _ stage]
  · rfl
  · rfl
  · rfl
  · rfl

namespace Logged

/-- What does not concern a transaction leaves its log as it is. -/
theorem frame (logged : Logged server program transaction record)
    (known : transaction.Finishing →
      server'.tidToNodes transaction.tid = server.tidToNodes transaction.tid)
    (pendWrites : server'.pendWrites transaction.tid = server.pendWrites transaction.tid)
    (rdyToCommit : server'.rdyToCommit transaction.tid = server.rdyToCommit transaction.tid)
    (replies : ∀ rid key node, transaction.stage = .reading rid key node →
      server'.replies rid = server.replies rid) :
    Logged server' program transaction record where
  start := logged.start
  program := by rw [Transaction.waitsFor_congr replies]; exact logged.program
  answers := by rw [Transaction.collected_congr replies]; exact logged.answers
  written := logged.written
  unwritten := logged.unwritten
  guarded := logged.guarded
  decided := logged.decided
  live := fun still => logged.live fun finishing => known finishing ▸ still finishing
  settled := fun finishing forgotten => logged.settled finishing (known finishing ▸ forgotten)
  pending := fun unsettled => by rw [pendWrites]; exact logged.pending unsettled
  prepared := fun ts ready => logged.prepared ts (rdyToCommit ▸ ready)

/-- What else is claimed does not matter to the log. -/
theorem claimed (logged : Logged server program transaction record) (guarded : Nat → Set Nat)
    (asked : ∀ key, (guarded key).Nonempty → Operation.read key ∈ program) :
    Logged server program transaction { record with guarded := guarded } :=
  { logged with guarded := asked }

/-- A transaction that has not been decided is active. -/
theorem active (logged : Logged server program transaction record)
    (undecided : ¬ transaction.Committed)
    (still : transaction.Finishing → server.tidToNodes transaction.tid ≠ none) :
    record.phase = .active := by
  rcases logged.live still with active | decided
  · exact active
  · exact absurd (logged.decided.1 (.inl decided)) undecided

/-- A transaction between two calls. -/
theorem active_of_active (logged : Logged server program transaction record)
    (stage : transaction.stage = .active) : record.phase = .active :=
  logged.active (by simp [Transaction.Committed, stage])
    fun finishing => by simp [Transaction.Finishing, stage] at finishing

/-- A transaction that waits for the reply to a read. -/
theorem active_of_reading (logged : Logged server program transaction record) {key node : Nat}
    (stage : transaction.stage = .reading rid key node) : record.phase = .active :=
  logged.active (by simp [Transaction.Committed, stage])
    fun finishing => by simp [Transaction.Finishing, stage] at finishing

/-- A transaction that is active is not decided, installed or dropped. -/
theorem of_active (active : record.phase = .active) (idle : ¬ transaction.Finishing)
    (undecided : ¬ transaction.Committed) (start : record.start = transaction.startTs)
    (program_eq : program = record.log.map Entry.operation ++ transaction.waitsFor server)
    (answers : transaction.collected server =
      (record.log.filterMap Entry.answer).map fun answer => (answer.1, some answer.2))
    (written : lastWritten record.log = transaction.pendWrites)
    (unwritten : ∀ rid key node, transaction.stage = .reading rid key node →
      transaction.pendWrites key = none)
    (guarded : ∀ key, (record.guarded key).Nonempty → Operation.read key ∈ program)
    (pending : (server.pendWrites transaction.tid).getD [] =
      record.log.filterMap Entry.written)
    (prepared : ∀ ts, server.rdyToCommit transaction.tid = some ts → ts = transaction.startTs) :
    Logged server program transaction record where
  start := start
  program := program_eq
  answers := answers
  written := written
  unwritten := unwritten
  guarded := guarded
  decided := iff_of_false (by simp [Record.Decided, active]) undecided
  live := fun _ => .inl active
  settled := fun finishing => absurd finishing idle
  pending := fun _ => pending
  prepared := prepared

/-- The read that a transaction waits for is answered. -/
theorem answered (logged : Logged server program transaction record) {key node : Nat}
    {value : String} (stage : transaction.stage = .reading rid key node)
    (active : record.phase = .active) (fresh : server.replies rid = none)
    (reply : server'.replies rid = some (.read value true))
    (pendWrites : server'.pendWrites transaction.tid = server.pendWrites transaction.tid)
    (rdyToCommit : server'.rdyToCommit transaction.tid = server.rdyToCommit transaction.tid) :
    Logged server' program transaction (record.append (.read key value)) := by
  have program_eq := logged.program
  have answers := logged.answers
  simp only [Transaction.waitsFor, stage, fresh, if_true] at program_eq
  simp only [Transaction.collected, stage, fresh] at answers
  refine .of_active active (by simp [Transaction.Finishing, stage])
    (by simp [Transaction.Committed, stage]) logged.start ?_ ?_ ?_ logged.unwritten
    logged.guarded ?_ ?_
  · simp [program_eq, Record.append, Entry.operation, Transaction.waitsFor, stage, reply]
  · simp [Record.append, Entry.answer, Transaction.collected, stage, reply, answers]
  · rw [← logged.written]
    exact lastWritten_append_read _ _ _
  · rw [pendWrites, logged.pending (.inl active)]
    simp [Record.append, Entry.written]
  · rw [rdyToCommit]
    exact logged.prepared

end Logged

/-! ## A transaction goes on -/

namespace Mirrors

variable {programs : Nat → List (Operation Nat String)}
  {transactions : Nat → Option Transaction} {state state' : Protocol} {id : Nat}
  {waking : List Nat} {events : List Nat}

/--
A transaction does something that concerns its own entries on the server, and
that no other transaction is told of.
-/
theorem change (mirrors : Mirrors programs transactions server state)
    (present : transactions id = some transaction)
    (here : state'.records transaction.tid = some record)
    (logged : Logged server' program transaction' record)
    (tid : transaction'.tid = transaction.tid)
    (touches : Touches server server' rid transaction.tid)
    (replies : ∀ other, other ≠ rid → server'.replies other = server.replies other)
    (fresh : ∀ event read, server.readEvents event = some read → read.rid ≠ rid)
    (kept : ∀ event read, server.readEvents event = some read →
      server'.readEvents event = some read)
    (answered : ∀ rid key node, transaction.stage = .reading rid key node →
      server.replies rid ≠ none)
    (realizes : Realizes server'.lockManager state'.claims)
    (versions : ∀ key ts value, server'.get key ts = some value →
      state'.versions key ts = some value)
    (records : ∀ other, other ≠ transaction.tid → state'.records other = state.records other)
    (asked : ∀ rid key node, transaction'.stage = .reading rid key node →
      ∃ event read, server'.readEvents event = some read ∧
        read.source = (rid, transaction.tid, key))
    (pending : ∀ event read, server'.readEvents event = some read →
      server.readEvents event = some read ∨
        read.tid = transaction.tid ∧ read.startTs = record.start ∧
          ∃ node, transaction'.stage = .reading read.rid read.key node) :
    Mirrors (Function.update programs id program)
      (Function.update transactions id (some transaction')) server' state' := by
  have cases : ∀ {other current},
      Function.update transactions id (some transaction') other = some current →
      other = id ∧ current = transaction' ∨ other ≠ id ∧ transactions other = some current := by
    intro other current there
    by_cases same : other = id
    · subst same
      exact .inl ⟨rfl, by simpa using there.symm⟩
    · exact .inr ⟨same, by simpa [same] using there⟩
  have others : ∀ {other current}, other ≠ id → transactions other = some current →
      current.tid ≠ transaction.tid := fun differs there same =>
    differs (mirrors.distinct _ _ _ _ there present same)
  refine
    { realizes := realizes
      versions := versions
      distinct := fun first second current current' there there' same => ?_
      known := fun other some' => ?_
      logged := fun other current there => ?_
      asked := fun other current rid' key node there stage => ?_
      pending := fun event read there unanswered => ?_ }
  · rcases cases there with ⟨rfl, rfl⟩ | ⟨differs, old⟩ <;>
      rcases cases there' with ⟨rfl, rfl⟩ | ⟨differs', old'⟩
    · rfl
    · exact absurd (same.symm.trans tid) (others differs' old')
    · exact absurd (same.trans tid) (others differs old)
    · exact mirrors.distinct _ _ _ _ old old' same
  · by_cases same : other = transaction.tid
    · exact ⟨id, transaction', Function.update_self .., tid.trans same.symm⟩
    · obtain ⟨holder, current, there, rfl⟩ := mirrors.known other (records other same ▸ some')
      have differs : holder ≠ id := by
        rintro rfl
        exact same (congrArg Transaction.tid (Option.some.inj (there.symm.trans present)))
      exact ⟨holder, current, by simpa [differs] using there, rfl⟩
  · rcases cases there with ⟨rfl, rfl⟩ | ⟨differs, old⟩
    · exact ⟨record, tid ▸ here, by simpa using logged⟩
    · obtain ⟨record', known, logged'⟩ := mirrors.logged other current old
      have distinct := others differs old
      refine ⟨record', (records _ distinct).trans known, ?_⟩
      rw [Function.update_of_ne differs]
      refine logged'.frame (fun _ => touches.known _ distinct) (touches.pendWrites _ distinct)
        (touches.rdyToCommit _ distinct) fun rid' key node stage => replies rid' ?_
      obtain ⟨event, read, made, source⟩ := mirrors.asked other current rid' key node old stage
      exact (show read.rid = rid' from congrArg Prod.fst source) ▸ fresh event read made
  · rcases cases there with ⟨rfl, rfl⟩ | ⟨differs, old⟩
    · exact tid ▸ asked rid' key node stage
    · obtain ⟨event, read, made, source⟩ := mirrors.asked other current rid' key node old stage
      exact ⟨event, read, kept event read made, source⟩
  · rcases pending event read there with old | ⟨mine, from', node, stage⟩
    · have unanswered' : server.replies read.rid = none := by
        rwa [← replies _ (fresh event read old)]
      obtain ⟨⟨other, current, node, there', owner, stage⟩, record', known, guards⟩ :=
        mirrors.pending event read old unanswered'
      have differs : other ≠ id := by
        rintro rfl
        obtain rfl := Option.some.inj (present.symm.trans there')
        exact answered _ _ _ stage unanswered'
      refine ⟨⟨other, current, node, by simpa [differs] using there', owner, stage⟩, record', ?_,
        guards⟩
      rw [records]
      · exact known
      · exact owner ▸ others differs there'
    · refine ⟨⟨id, transaction', node, Function.update_self .., tid.trans mine.symm, stage⟩,
        record, mine ▸ here, from'.le, fun ts least most => ?_⟩
      exact absurd (lt_of_le_of_lt least most) (from' ▸ lt_irrefl _)

/-! ## Reads -/

/-- A read is run, and is answered or waits. -/
theorem reads {read : ReadEvent} {node : Nat}
    (mirrors : Mirrors programs transactions server state) (last : ReadEvent)
    (reads : ReadsOnly server server')
    (unique : ∀ event' read', server.readEvents event' = some read' → read'.rid = read.rid →
      event' = event)
    (made : server.readEvents event = some read) (source : last.source = read.source)
    (readEvents : server'.readEvents = Function.update server.readEvents event (some last))
    (replies : ∀ other, other ≠ read.rid → server'.replies other = server.replies other)
    (present : transactions id = some transaction) (owner : transaction.tid = read.tid)
    (stage : transaction.stage = .reading read.rid read.key node)
    (realizes : Realizes server'.lockManager state'.claims)
    (versions : state'.versions = state.versions)
    (records : ∀ other, other ≠ read.tid → state'.records other = state.records other)
    (here : state'.records read.tid = some record)
    (logged : Logged server' (programs id) transaction record)
    (pending : server'.replies read.rid = none → Pending transactions state' last) :
    Mirrors programs transactions server' state' := by
  obtain ⟨sameRid, -⟩ : last.rid = read.rid ∧ last.tid = read.tid :=
    ⟨congrArg Prod.fst source, congrArg (·.2.1) source⟩
  -- The other transactions wait for other replies.
  have elsewhere : ∀ {event' read'}, server.readEvents event' = some read' → event' ≠ event →
      read'.rid ≠ read.rid := fun made' differs same => differs (unique _ _ made' same)
  have others : ∀ {other current}, transactions other = some current → other ≠ id →
      current.tid ≠ read.tid := fun there differs same =>
    differs (mirrors.distinct _ _ _ _ there present (same.trans owner.symm))
  refine
    { realizes := realizes
      versions := fun key ts value known =>
        versions ▸ mirrors.versions key ts value (get_of_store reads.store key ts ▸ known)
      distinct := mirrors.distinct
      known := fun other some' => ?_
      logged := fun other current there => ?_
      asked := fun other current rid key node there stage => ?_
      pending := fun event' read' there unanswered => ?_ }
  · by_cases same : other = read.tid
    · exact ⟨id, transaction, present, owner.trans same.symm⟩
    · exact mirrors.known other (records other same ▸ some')
  · by_cases same : other = id
    · subst same
      obtain rfl := Option.some.inj (present.symm.trans there)
      exact ⟨record, owner ▸ here, logged⟩
    · obtain ⟨record', known, logged'⟩ := mirrors.logged other current there
      have distinct := others there same
      refine ⟨record', (records _ distinct).trans known, ?_⟩
      refine logged'.frame (fun _ => by rw [reads.tidToNodes]) (by rw [reads.pendWrites])
        (by rw [reads.rdyToCommit]) fun rid key node stage => replies rid ?_
      obtain ⟨event', read', made', source'⟩ :=
        mirrors.asked other current rid key node there stage
      obtain ⟨waits, owned⟩ : read'.rid = rid ∧ read'.tid = current.tid :=
        ⟨congrArg Prod.fst source', congrArg (·.2.1) source'⟩
      rw [← waits]
      refine elsewhere made' ?_
      rintro rfl
      obtain rfl := Option.some.inj (made'.symm.trans made)
      exact distinct owned.symm
  · obtain ⟨event', read', made', source'⟩ := mirrors.asked other current rid key node there stage
    obtain ⟨read'', made'', source''⟩ : ∃ read'', server'.readEvents event' = some read'' ∧
        read''.source = read'.source := by
      have kept := reads.source event'
      rw [made', Option.map_some] at kept
      exact Option.map_eq_some_iff.1 kept
    exact ⟨event', read'', made'', source''.trans source'⟩
  · rw [readEvents] at there
    by_cases same : event' = event
    · subst same
      obtain rfl : last = read' := by simpa using there
      exact pending (sameRid ▸ unanswered)
    · rw [Function.update_of_ne same] at there
      rw [replies _ (elsewhere there same)] at unanswered
      obtain ⟨⟨other, current, node', there', owned, stage'⟩, record', known, guards⟩ :=
        mirrors.pending event' read' there unanswered
      refine ⟨⟨other, current, node', there', owned, stage'⟩, record', ?_, guards⟩
      rw [records]
      · exact known
      · rw [← owned]
        refine others there' ?_
        rintro rfl
        obtain rfl := Option.some.inj (present.symm.trans there')
        obtain ⟨waits, -⟩ := Stage.reading.inj (stage.symm.trans stage')
        exact elsewhere there same waits.symm

/-- A read event that runs claims what it has gone past, and is answered or waits. -/
theorem runRead (mirrors : Mirrors programs transactions server state)
    (wakeful : Wakeful (event :: waking) server) (ran : server.runRead event = .ok server') :
    ∃ state', Relation.ReflTransGen Step state state' ∧ SameWrites state state' ∧
      Mirrors programs transactions server' state' := by
  obtain ⟨read, made, cases⟩ := runRead_cases ran
  obtain ⟨phase, manager, res, low, returned, outcome⟩ := cases.resolve_right fun answered => by
    rcases wakeful.reads event read made with ⟨waits, -⟩ | ⟨phase, -⟩
    · exact absurd (waits.phase.symm.trans answered.1) (by decide)
    · exact absurd (phase.symm.trans answered.1) (by decide)
  have waits : server.Waits read := by
    rcases wakeful.reads event read made with ⟨waits, -⟩ | ⟨answered, -⟩
    · exact waits
    · exact absurd (phase.symm.trans answered) (by decide)
  obtain ⟨positive, bound⟩ := waits.timely
  obtain ⟨⟨id, transaction, node, present, owner, stage⟩, record, here, early, guards⟩ :=
    mirrors.pending event read made waits.fresh
  obtain ⟨record', here', logged⟩ := mirrors.logged id transaction present
  obtain rfl := Option.some.inj (here.symm.trans (owner ▸ here'))
  have active := logged.active_of_reading stage
  rw [uintPred_eq positive] at returned
  obtain ⟨point, stop, rfl, within, covering, stops, answers, passed, realizes⟩ :=
    mirrors.realizes.backward (by omega) returned
  -- The transaction claims the points that it has gone past.
  let range := Set.Ioc point (read.startTs - 1)
  let claimed : Account :=
    { record with
      guarded := Function.update record.guarded read.key (record.guarded read.key ∪ range) }
  have scan : Step state (state.scan read.tid record read.key range) :=
    .scan here active (fun ts member => by have := member.2; omega) fun ts member => by
      obtain ⟨lock, covers, goesOn⟩ := passed ts member.1 member.2
      exact mirrors.realizes.passes covers goesOn
  have guarded : ∀ ts, point < ts → ts < record.start → ts ∈ claimed.guarded read.key := by
    intro ts after before
    simp only [claimed, Function.update_self]
    by_cases inRange : ts ≤ read.startTs - 1
    · exact .inr ⟨after, inRange⟩
    · exact .inl (guards ts (by omega) before)
  have sameWrites : SameWrites state (state.scan read.tid record read.key range) := by
    refine ⟨rfl, fun key ts tid => ?_, fun key ts => ?_⟩ <;>
      simp only [State.scan, State.put_claims, changeAt] <;> split <;> simp
  have asked : ∀ key, (claimed.guarded key).Nonempty → Operation.read key ∈ programs id := by
    intro key some'
    by_cases same : key = read.key
    · rw [logged.program, same]
      simp [Transaction.waitsFor, stage, waits.fresh]
    · exact logged.guarded key (by simpa [claimed, same] using some')
  have readsOnly := readsOnly_runRead ran
  have unique : ∀ event' read', server.readEvents event' = some read' → read'.rid = read.rid →
      event' = event := fun event' read' made' same => wakeful.distinct _ _ _ _ made' made same
  rcases outcome with ⟨rfl, rfl⟩ | ⟨rfl, answered⟩
  · refine ⟨_, .single scan, sameWrites,
      mirrors.reads { read with startTs := point + 1 } readsOnly unique made rfl rfl
        (fun _ _ => rfl) present owner stage realizes rfl
      (fun other differs => Function.update_of_ne differs ..) State.put_self ?_ fun _ => ?_⟩
    · exact (logged.claimed _ asked).frame (fun _ => rfl) rfl rfl fun _ _ _ _ => rfl
    · exact ⟨⟨id, transaction, node, present, owner, stage⟩, claimed, State.put_self,
        show point + 1 ≤ record.start by omega, guarded⟩
  · obtain ⟨value, known, fresh, rfl⟩ := answerRead_eq answered
    have known : server.get read.key point = some value := by
      rwa [uintPred_eq (Nat.succ_pos point)] at known
    have unwritten : lastWritten record.log read.key = none := by
      rw [logged.written]
      exact logged.unwritten _ _ _ stage
    have written := mirrors.realizes.eq_written covering stops (answers.1 rfl)
    have answer : Step (state.scan read.tid record read.key range)
        ((state.scan read.tid record read.key range).put read.tid
          (claimed.append (.read read.key value))) := by
      refine .answer State.put_self active unwritten (show point < record.start by omega) ?_
        (mirrors.versions _ _ _ known) guarded
      simp [State.scan, changeAt, range, written]
    refine ⟨_, (Relation.ReflTransGen.single scan).tail answer,
      ⟨rfl, sameWrites.writing, sameWrites.written⟩,
      mirrors.reads { read with startTs := point + 1, phase := 2 } readsOnly unique made rfl rfl
        (fun other differs => Function.update_of_ne differs ..) present owner stage realizes rfl
        (fun other differs => ?_) State.put_self ?_ fun unanswered => ?_⟩
    · simp [State.put, State.scan, differs]
    · exact (logged.claimed _ asked).answered stage active fresh (Function.update_self ..) rfl rfl
    · simp at unanswered

theorem runEvents (mirrors : Mirrors programs transactions server state)
    (wakeful : Wakeful events server) (ran : SimpleTServer.runEvents events server = .ok server') :
    ∃ state', Relation.ReflTransGen Step state state' ∧ SameWrites state state' ∧
      Mirrors programs transactions server' state' := by
  induction events generalizing server state with
  | nil =>
      obtain rfl := Except.ok.inj ran
      exact ⟨state, .refl, .refl state, mirrors⟩
  | cons event events ih =>
      obtain ⟨server₁, first, rest⟩ := exists_of_bind ran
      obtain ⟨state₁, steps, same, mirrors₁⟩ := mirrors.runRead wakeful first
      obtain ⟨state₂, steps', same', mirrors₂⟩ := ih mirrors₁ (wakeful.runRead first) rest
      exact ⟨state₂, steps.trans steps', same.trans same', mirrors₂⟩

end Mirrors

end Mvtx.Cluster
