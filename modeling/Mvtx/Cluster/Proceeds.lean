import Mvtx.Cluster.World
import Mvtx.Server.Handle

/-!
# A transaction goes on

A step of the world is a transaction that goes on, with at most one request
handled for it.  `Proceeds` says so, and `Tracked` is the part of the invariants
that does not depend on transaction IDs: a read that has not been answered
belongs to a transaction that waits for it, and a mutex that has been left
locked to a transaction that will not get out of its loop.
-/

namespace Mvtx.Cluster

open Lib Server

variable {world world' : World} {id event : Nat} {unset : Bool} {request : Request}
  {transaction transaction' : Transaction} {server server' : SimpleTServer} {mapper : Nat → Nat}
  {rid : Nat}

/-! ## Handling a request -/

theorem World.serve_eq_ok (served : world.serve mapper id event unset request = .ok world') :
    ∃ server', Handled mapper world.server (world.sent + 1) event unset request server' ∧
      world' =
        { world with server := server', handled := world.handled ++ [(id, request)] } := by
  unfold World.serve at served
  split at served
  · exact absurd served (by simp)
  · next server' handled => exact ⟨server', handled_of_handle handled, (Except.ok.inj served).symm⟩

/-- Only a read makes a read event. -/
theorem source_of_handled (handled : Handled mapper server rid event unset request server')
    {other : Nat} {state : ReadEvent} (present : server'.readEvents other = some state) :
    (∃ old, server.readEvents other = some old ∧ old.source = state.source) ∨
      state.rid = rid ∧ state.tid = request.tid ∧
        ∃ tid startTs key, request = .read tid startTs key := by
  cases handled with
  | @read tid startTs key _ served unlocked ran =>
      obtain ⟨taken, there, source⟩ := (readsOnly_runRead ran).exists_source present
      by_cases same : other = event
      · subst same
        obtain rfl : _ = taken := by
          simpa [SimpleTServer.takenUp, SimpleTServer.setEvent] using there
        exact .inr ⟨(congrArg Prod.fst source).symm, (congrArg (·.2.1) source).symm, tid, startTs,
          key, rfl⟩
      · exact .inl ⟨taken, by simpa [SimpleTServer.takenUp, SimpleTServer.setEvent, same] using there,
          source⟩
  | @p2c tid vote nodes manager events server₁ known unlocked released ran fresh =>
      obtain ⟨store, pendWrites, rdyToCommit, same, -⟩ := finalize_eq server₁ tid vote
      rw [same] at present
      exact .inl ((readsOnly_runEvents ran).exists_source present)
  | write | writeRefused | p1c | p1cRefused | p2cRefused => exact .inl ⟨state, present, rfl⟩

/-- The reply to a `TP1C` lists the nodes that it names, unless it has been turned down. -/
theorem reply_of_p1c {tid startTs commitTs : Nat} {readNodes writeNodes : Finset Nat}
    (handled : Handled mapper server rid event unset
      (.p1c tid startTs commitTs readNodes writeNodes) server') :
    ∃ nodes vote, server'.replies rid = some (.p1c nodes vote) ∧
      (server.tidToWriteNodes tid = none ∧ nodes = ∅ ∨
        server.tidToWriteNodes tid ≠ none ∧ writeNodes ⊆ nodes) := by
  cases handled with
  | @p1c _ _ _ _ _ nodes _ res known unlocked locked fresh =>
      exact ⟨_, res, Function.update_self .., .inr ⟨by simp [known], Finset.subset_union_right⟩⟩
  | p1cRefused refused unlocked fresh =>
      exact ⟨∅, unset, Function.update_self .., .inl ⟨refused, rfl⟩⟩

theorem reply_of_p2c {tid : Nat} {vote : Bool}
    (handled : Handled mapper server rid event unset (.p2c tid vote) server') :
    ∃ nodes, server'.replies rid = some (.p2c nodes) ∧
      (server.tidToNodes tid = none → nodes = ∅) := by
  cases handled with
  | @p2c _ _ nodes _ _ _ known unlocked released ran fresh =>
      exact ⟨nodes, Function.update_self .., fun none' => by simp [known] at none'⟩
  | p2cRefused refused unlocked fresh => exact ⟨∅, Function.update_self .., fun _ => rfl⟩

/-! ## Going on -/

/-- In the loop for `TP1C` with nodes left. -/
def Stage.InPhaseOne (stage : Stage) : Prop :=
  ∃ committing remNodes vote, stage = .phaseOne committing remNodes vote ∧ remNodes ≠ ∅

/-- In the loop for `TP2C` with nodes left. -/
def Stage.InPhaseTwo (stage : Stage) : Prop :=
  ∃ committing vote remNodes, stage = .phaseTwo committing vote remNodes ∧ remNodes ≠ ∅

/-- The world after a transaction has gone on. -/
def World.after (world : World) (server' : SimpleTServer) (id : Nat) (transaction' : Transaction)
    (more : List (Nat × Request)) : World :=
  { world with
    server := server'
    transactions := Function.update world.transactions id (some transaction')
    handled := world.handled ++ more }

/-- A transaction goes on, and the server handles at most a request of it. -/
structure Proceeds (world : World) (id : Nat) (transaction transaction' : Transaction)
    (server' : SimpleTServer) (more : List (Nat × Request)) : Prop where
  present : world.transactions id = some transaction
  tid : transaction'.tid = transaction.tid
  startTs : transaction'.startTs = transaction.startTs
  answered : ∀ rid key node, transaction.stage = .reading rid key node →
    world.server.replies rid ≠ none
  own : ∀ entry ∈ more, entry.1 = id
  touches : Touches world.server server' (world.handled ++ more).length transaction.tid
  taken : ∀ event state, server'.readEvents event = some state →
    server'.replies state.rid = none →
      (∃ old, world.server.readEvents event = some old ∧ old.source = state.source) ∨
        state.tid = transaction.tid ∧ ∃ key node, transaction'.stage = .reading state.rid key node
  mutex : server'.tidMutex = true → transaction'.stage.InPhaseTwo ∨
    world.server.tidMutex = true ∧ ¬ transaction.stage.InPhaseTwo
  writeMutex : server'.tidWriteMutex = true → transaction'.stage.InPhaseOne ∨
    world.server.tidWriteMutex = true ∧ ¬ transaction.stage.InPhaseOne

/-- What holds whatever the transaction IDs are. -/
structure Tracked (world : World) : Prop where
  begun : ∀ id, world.transactions id ≠ none → id < world.begun
  owned : ∀ entry ∈ world.handled, entry.1 < world.begun
  replies : ∀ rid, world.server.replies rid ≠ none → rid ≤ world.sent
  events : ∀ event state, world.server.readEvents event = some state →
    state.rid ≤ world.sent ∧
      (world.server.replies state.rid = none → ∃ id transaction key node,
        world.transactions id = some transaction ∧ transaction.tid = state.tid ∧
          transaction.stage = .reading state.rid key node)
  mutex : world.server.tidMutex = true → ∃ id transaction,
    world.transactions id = some transaction ∧ transaction.stage.InPhaseTwo
  writeMutex : world.server.tidWriteMutex = true → ∃ id transaction,
    world.transactions id = some transaction ∧ transaction.stage.InPhaseOne

namespace World

variable {more : List (Nat × Request)} {other : Nat} {current : Transaction}

theorem after_cases
    (here : (world.after server' id transaction' more).transactions other = some current) :
    other = id ∧ current = transaction' ∨ other ≠ id ∧ world.transactions other = some current := by
  by_cases same : other = id
  · subst same
    exact .inl ⟨rfl, by simpa [World.after] using here.symm⟩
  · exact .inr ⟨same, by simpa [World.after, same] using here⟩

theorem after_self :
    (world.after server' id transaction' more).transactions id = some transaction' :=
  Function.update_self ..

theorem after_of_ne (here : world.transactions other = some current) (differs : other ≠ id) :
    (world.after server' id transaction' more).transactions other = some current :=
  (Function.update_of_ne differs ..).trans here

theorem store_store (world : World) (id : Nat) (first second : Transaction) :
    (world.store id first).store id second = world.store id second := by
  simp [World.store]

theorem after_nil (world : World) (id : Nat) (transaction' : Transaction) :
    world.after world.server id transaction' [] = world.store id transaction' := by
  simp [World.after, World.store]

/-- The world in which a new transaction begins. -/
theorem start_cases {tid startTs : Nat}
    (here : Function.update world.transactions world.begun (some (.new tid startTs)) other =
      some current) :
    other = world.begun ∧ current = .new tid startTs ∨
      world.transactions other = some current := by
  by_cases same : other = world.begun
  · subst same
    exact .inl ⟨rfl, by simpa using here.symm⟩
  · exact .inr (by simpa [same] using here)

end World

namespace Tracked

theorem first : Tracked .first where
  begun := by simp [World.first]
  owned := by simp [World.first]
  replies := by simp [World.first, SimpleTServer.initial]
  events := by simp [World.first, SimpleTServer.initial]
  mutex := by simp [World.first, SimpleTServer.initial]
  writeMutex := by simp [World.first, SimpleTServer.initial]

theorem start_of_ne (tracked : Tracked world) {tid startTs other : Nat} {current : Transaction}
    (here : world.transactions other = some current) :
    Function.update world.transactions world.begun (some (.new tid startTs)) other =
      some current :=
  (Function.update_of_ne (tracked.begun other (by simp [here])).ne ..).trans here

theorem start (tracked : Tracked world) {process tid startTs : Nat}
    (stepped : world.step mapper (.start process tid startTs) = .ok world') : Tracked world' := by
  obtain rfl := Except.ok.inj stepped
  refine
    { begun := fun id some => ?_
      owned := fun entry member => (tracked.owned entry member).trans (Nat.lt_succ_self _)
      replies := tracked.replies
      events := fun event state here => ?_
      mutex := fun held => ?_
      writeMutex := fun held => ?_ }
  · obtain ⟨transaction, here⟩ := Option.ne_none_iff_exists'.1 some
    rcases World.start_cases here with ⟨rfl, -⟩ | old
    · exact Nat.lt_succ_self _
    · exact (tracked.begun id (by simp [old])).trans (Nat.lt_succ_self _)
  · refine (tracked.events event state here).imp_right fun waits unanswered => ?_
    obtain ⟨id, transaction, key, node, there, rest⟩ := waits unanswered
    exact ⟨id, transaction, key, node, tracked.start_of_ne there, rest⟩
  · obtain ⟨id, transaction, there, inPhase⟩ := tracked.mutex held
    exact ⟨id, transaction, tracked.start_of_ne there, inPhase⟩
  · obtain ⟨id, transaction, there, inPhase⟩ := tracked.writeMutex held
    exact ⟨id, transaction, tracked.start_of_ne there, inPhase⟩

theorem change (tracked : Tracked world) {more : List (Nat × Request)}
    (proceeds : Proceeds world id transaction transaction' server' more) :
    Tracked (world.after server' id transaction' more) := by
  have present := proceeds.present
  have longer : world.sent ≤ (world.handled ++ more).length := by
    simp [World.sent]
  refine
    { begun := fun other some => ?_
      owned := fun entry member => ?_
      replies := fun rid replied => ?_
      events := fun event state here => ?_
      mutex := fun held => ?_
      writeMutex := fun held => ?_ }
  · obtain ⟨current, here⟩ := Option.ne_none_iff_exists'.1 some
    rcases World.after_cases here with ⟨rfl, -⟩ | ⟨-, old⟩
    · exact tracked.begun other (by simp [present])
    · exact tracked.begun other (by simp [old])
  · rcases List.mem_append.1 member with old | new
    · exact tracked.owned entry old
    · rw [proceeds.own entry new]
      exact tracked.begun id (by simp [present])
  · rcases proceeds.touches.replied rid replied with old | rfl | ⟨event, state, started, rfl⟩
    · exact (tracked.replies rid old).trans longer
    · exact Nat.le_refl _
    · exact (tracked.events event state started).1.trans longer
  · refine ⟨?_, fun unanswered => ?_⟩
    · rcases proceeds.touches.events event state here with same | ⟨old, started, source⟩
      · exact same ▸ Nat.le_refl _
      · rw [← show old.rid = state.rid from congrArg Prod.fst source]
        exact (tracked.events event old started).1.trans longer
    · rcases proceeds.taken event state here unanswered with
        ⟨old, started, source⟩ | ⟨mine, key, node, stage⟩
      · obtain ⟨sameRid, sameTid⟩ : old.rid = state.rid ∧ old.tid = state.tid :=
          ⟨congrArg Prod.fst source, congrArg (·.2.1) source⟩
        have waits : world.server.replies old.rid = none := by
          by_contra replied
          obtain ⟨reply, sent⟩ := Option.ne_none_iff_exists'.1 replied
          have kept := proceeds.touches.kept _ _ sent
          rw [sameRid] at kept
          exact absurd (unanswered.symm.trans kept) (by simp)
        obtain ⟨other, current, key, node, there, owner, stage⟩ :=
          (tracked.events event old started).2 waits
        have differs : other ≠ id := by
          rintro rfl
          obtain rfl := Option.some.inj (present.symm.trans there)
          exact proceeds.answered _ _ _ stage waits
        exact ⟨other, current, key, node, World.after_of_ne there differs, owner.trans sameTid,
          sameRid ▸ stage⟩
      · exact ⟨id, transaction', key, node, World.after_self, proceeds.tid.trans mine.symm, stage⟩
  · rcases proceeds.mutex held with mine | ⟨old, idle⟩
    · exact ⟨id, transaction', World.after_self, mine⟩
    · obtain ⟨other, current, there, inPhase⟩ := tracked.mutex old
      refine ⟨other, current, World.after_of_ne there ?_, inPhase⟩
      rintro rfl
      exact idle (Option.some.inj (present.symm.trans there) ▸ inPhase)
  · rcases proceeds.writeMutex held with mine | ⟨old, idle⟩
    · exact ⟨id, transaction', World.after_self, mine⟩
    · obtain ⟨other, current, there, inPhase⟩ := tracked.writeMutex old
      refine ⟨other, current, World.after_of_ne there ?_, inPhase⟩
      rintro rfl
      exact idle (Option.some.inj (present.symm.trans there) ▸ inPhase)

/-- The number of the next request is new. -/
theorem unsent (tracked : Tracked world) : world.server.replies (world.sent + 1) = none := by
  by_contra replied
  exact Nat.not_succ_le_self _ (tracked.replies _ replied)

theorem fresh (tracked : Tracked world) (other : Nat) (state : ReadEvent)
    (here : world.server.readEvents other = some state) : state.rid ≠ world.sent + 1 := by
  have below := (tracked.events other state here).1
  omega

end Tracked

/-- A transaction that goes on without a request. -/
theorem proceeds_store (present : world.transactions id = some transaction)
    (tid : transaction'.tid = transaction.tid)
    (startTs : transaction'.startTs = transaction.startTs)
    (answered : ∀ rid key node, transaction.stage = .reading rid key node →
      world.server.replies rid ≠ none)
    (free : ¬ transaction.stage.InPhaseOne ∧ ¬ transaction.stage.InPhaseTwo) :
    Proceeds world id transaction transaction' world.server [] where
  present := present
  tid := tid
  startTs := startTs
  answered := answered
  own := by simp
  touches := .refl _ _ _
  taken := fun event state here _ => .inl ⟨state, here, rfl⟩
  mutex := fun held => .inr ⟨held, free.2⟩
  writeMutex := fun held => .inr ⟨held, free.1⟩

/-- A transaction that goes on with a request. -/
theorem proceeds_serve (present : world.transactions id = some transaction)
    (tid : transaction'.tid = transaction.tid)
    (startTs : transaction'.startTs = transaction.startTs)
    (idle : ∀ rid key node, transaction.stage ≠ .reading rid key node)
    (handled : Handled mapper world.server (world.sent + 1) event unset request server')
    (owner : request.tid = transaction.tid)
    (reads : ∀ tid startTs key, request = .read tid startTs key →
      ∃ key node, transaction'.stage = .reading (world.sent + 1) key node)
    (one : transaction.stage.InPhaseOne → ∃ tid startTs commitTs readNodes writeNodes,
      request = .p1c tid startTs commitTs readNodes writeNodes)
    (oneRefused : ∀ tid startTs commitTs readNodes writeNodes,
      request = .p1c tid startTs commitTs readNodes writeNodes →
        world.server.tidToWriteNodes tid = none → transaction'.stage.InPhaseOne)
    (two : transaction.stage.InPhaseTwo → ∃ tid vote, request = .p2c tid vote)
    (twoRefused : ∀ tid vote, request = .p2c tid vote → world.server.tidToNodes tid = none →
      transaction'.stage.InPhaseTwo) :
    Proceeds world id transaction transaction' server' [(id, request)] where
  present := present
  tid := tid
  startTs := startTs
  answered := fun rid key node stage => absurd stage (idle rid key node)
  own := by simp
  touches := by
    have touches := handled.touches
    rw [owner] at touches
    simpa [World.sent] using touches
  taken := by
    intro other state here _
    refine (source_of_handled handled here).imp_right fun ⟨rid, tid, _, _, _, same⟩ => ?_
    exact ⟨tid.trans owner, rid ▸ reads _ _ _ same⟩
  mutex := by
    intro held
    refine (tidMutex_of_handled handled held).imp ?_ fun ⟨old, other⟩ => ⟨old, fun inPhase => ?_⟩
    · exact fun ⟨tid, vote, same, refused⟩ => twoRefused tid vote same refused
    · obtain ⟨tid, vote, same⟩ := two inPhase
      exact other tid vote same
  writeMutex := by
    intro held
    refine (tidWriteMutex_of_handled handled held).imp ?_
      fun ⟨old, other⟩ => ⟨old, fun inPhase => ?_⟩
    · exact fun ⟨_, _, _, _, _, same, refused⟩ => oneRefused _ _ _ _ _ same refused
    · obtain ⟨_, _, _, _, _, same⟩ := one inPhase
      exact other _ _ _ _ _ same

/-! ## The steps of a transaction -/

theorem World.store_self (world : World) (id : Nat) (transaction : Transaction) :
    (world.store id transaction).transactions id = some transaction :=
  Function.update_self ..

theorem World.after_store (world : World) (id : Nat) (first second : Transaction)
    (more : List (Nat × Request)) :
    (world.store id first).after server' id second more = world.after server' id second more := by
  simp [World.after, World.store]

/-- What a transaction that is ready has been, and the reply that it has collected. -/
theorem proceeds_ready (found : world.ready id = .ok transaction) :
    transaction.stage = .active ∧ ∃ current,
      Proceeds world id current transaction world.server [] ∧
        (transaction = current ∨ ∃ rid key node value status,
          current.stage = .reading rid key node ∧
            world.server.replies rid = some (.read value status) ∧
            transaction =
              { current with
                readNodes := insert node current.readNodes
                returned := current.returned ++ [(key, if status then some value else none)]
                stage := .active }) := by
  unfold World.ready at found
  split at found
  · exact absurd found (by simp)
  · next current present =>
      split at found
      · next stage =>
          obtain rfl := Except.ok.inj found
          exact ⟨stage, current, proceeds_store present rfl rfl (by simp [stage])
            (by simp [stage, Stage.InPhaseOne, Stage.InPhaseTwo]), .inl rfl⟩
      · next rid key node stage =>
          split at found
          · next value status replied =>
              obtain rfl := Except.ok.inj found
              refine ⟨rfl, current, proceeds_store present rfl rfl (fun rid' key' node' same => ?_)
                (by simp [stage, Stage.InPhaseOne, Stage.InPhaseTwo]),
                .inr ⟨rid, key, node, value, status, stage, replied, rfl⟩⟩
              obtain ⟨rfl, -⟩ := by simpa [stage] using same
              simp [replied]
          · exact absurd found (by simp)
      · exact absurd found (by simp)

/-- A transaction between two calls goes on without a request. -/
theorem proceeds_of_active (active : transaction.stage = .active)
    (tid : transaction'.tid = transaction.tid)
    (startTs : transaction'.startTs = transaction.startTs) :
    Proceeds (world.store id transaction) id transaction transaction' world.server [] :=
  proceeds_store (World.store_self _ _ _) tid startTs (by simp [active])
    (by simp [active, Stage.InPhaseOne, Stage.InPhaseTwo])

/-- A transaction between two calls goes on with a read or a write. -/
theorem proceeds_serve_of_active (active : transaction.stage = .active)
    (tid : transaction'.tid = transaction.tid)
    (startTs : transaction'.startTs = transaction.startTs)
    (handled : Handled mapper world.server (world.sent + 1) event unset request server')
    (owner : request.tid = transaction.tid)
    (reads : ∀ tid startTs key, request = .read tid startTs key →
      ∃ key node, transaction'.stage = .reading (world.sent + 1) key node)
    (early : ∀ tid, (∀ startTs commitTs readNodes writeNodes,
      request ≠ .p1c tid startTs commitTs readNodes writeNodes) ∧ ∀ vote, request ≠ .p2c tid vote) :
    Proceeds (world.store id transaction) id transaction transaction' server' [(id, request)] :=
  proceeds_serve (World.store_self _ _ _) tid startTs (by simp [active]) handled owner reads
    (by simp [active, Stage.InPhaseOne])
    (fun tid startTs commitTs readNodes writeNodes same _ =>
      absurd same ((early tid).1 startTs commitTs readNodes writeNodes))
    (by simp [active, Stage.InPhaseTwo])
    (fun tid vote same _ => absurd same ((early tid).2 vote))

/-- How `read` is called. -/
theorem read_cases {key : Nat}
    (stepped : world.step mapper (.read id key event) = .ok world') :
    ∃ transaction, world.ready id = .ok transaction ∧
      ((∃ value, transaction.pendWrites key = some value ∧
          world' = world.store id
            { transaction with returned := transaction.returned ++ [(key, some value)] }) ∨
        ∃ server', transaction.pendWrites key = none ∧ world.server.readEvents event = none ∧
          Handled mapper world.server (world.sent + 1) event false
            (.read transaction.tid transaction.startTs key) server' ∧
          world' = world.after server' id
            { transaction with stage := .reading (world.sent + 1) key (mapper key) }
            [(id, .read transaction.tid transaction.startTs key)]) := by
  obtain ⟨transaction, found, stepped⟩ := exists_of_bind stepped
  refine ⟨transaction, found, ?_⟩
  split at stepped
  · next value pending =>
      obtain rfl := Except.ok.inj stepped
      exact .inl ⟨value, pending, rfl⟩
  · exact absurd stepped (by simp)
  · next pending new =>
      obtain ⟨world₁, served, stepped⟩ := exists_of_bind stepped
      obtain ⟨server', handled, rfl⟩ := World.serve_eq_ok served
      obtain rfl := Except.ok.inj stepped
      exact .inr ⟨server', pending, new, handled, by simp [World.after, World.store, World.sent]⟩

/-- How `write` is called. -/
theorem write_cases {key : Nat} {value : String}
    (stepped : world.step mapper (.write id key value) = .ok world') :
    ∃ transaction server', world.ready id = .ok transaction ∧
      Handled mapper world.server (world.sent + 1) 0 false
        (.write transaction.tid key value) server' ∧
      world' = world.after server' id
        { transaction with
          pendWrites := Function.update transaction.pendWrites key (some value)
          writeNodes := insert (mapper key) transaction.writeNodes }
        [(id, .write transaction.tid key value)] := by
  obtain ⟨transaction, found, stepped⟩ := exists_of_bind stepped
  obtain ⟨world₁, served, stepped⟩ := exists_of_bind stepped
  obtain ⟨server', handled, rfl⟩ := World.serve_eq_ok served
  obtain rfl := Except.ok.inj stepped
  exact ⟨transaction, server', found, handled, by simp [World.after, World.store]⟩

theorem present_of_finishing (found : world.finishing id = .ok transaction) :
    world.transactions id = some transaction := by
  unfold World.finishing at found
  split at found
  · exact absurd found (by simp)
  · next present => rw [present, Except.ok.inj found]

/-- How the loop for `TP1C` goes on. -/
theorem phaseOne_cases (stepped : world.step mapper (.phaseOne id unset) = .ok world') :
    ∃ transaction committing remNodes vote, world.transactions id = some transaction ∧
      transaction.stage = .phaseOne committing remNodes vote ∧
      (remNodes = ∅ ∧
          world' = world.store id
            { transaction with
              stage := .phaseTwo committing (committing && vote) transaction.nodes } ∨
        ∃ server' nodes vote', remNodes ≠ ∅ ∧
          Handled mapper world.server (world.sent + 1) 0 unset
            (.p1c transaction.tid transaction.startTs transaction.startTs
              transaction.readNodes transaction.writeNodes) server' ∧
          server'.replies (world.sent + 1) = some (.p1c nodes vote') ∧
          world' = world.after server' id
            { transaction with
              stage := .phaseOne committing (remNodes \ nodes) (vote && vote') }
            [(id, .p1c transaction.tid transaction.startTs transaction.startTs
              transaction.readNodes transaction.writeNodes)]) := by
  obtain ⟨transaction, found, stepped⟩ := exists_of_bind stepped
  have present := present_of_finishing found
  split at stepped
  · next committing remNodes vote stage =>
      refine ⟨transaction, committing, remNodes, vote, present, stage, ?_⟩
      split at stepped
      · next none' => exact .inl ⟨none', (Except.ok.inj stepped).symm⟩
      · next remain =>
          obtain ⟨world₁, served, stepped⟩ := exists_of_bind stepped
          obtain ⟨server', handled, rfl⟩ := World.serve_eq_ok served
          split at stepped
          · next nodes vote' replied =>
              obtain rfl := Except.ok.inj stepped
              refine .inr ⟨server', nodes, vote', remain, handled, ?_, rfl⟩
              simpa [World.sent] using replied
          · exact absurd stepped (by simp)
  · exact absurd stepped (by simp)

/-- How the loop for `TP2C` goes on. -/
theorem phaseTwo_cases (stepped : world.step mapper (.phaseTwo id) = .ok world') :
    ∃ transaction committing vote remNodes, world.transactions id = some transaction ∧
      transaction.stage = .phaseTwo committing vote remNodes ∧
      (remNodes = ∅ ∧
          world' = world.store id { transaction with stage := .ended committing vote } ∨
        ∃ server' nodes, remNodes ≠ ∅ ∧
          Handled mapper world.server (world.sent + 1) 0 false (.p2c transaction.tid vote)
            server' ∧
          server'.replies (world.sent + 1) = some (.p2c nodes) ∧
          world' = world.after server' id
            { transaction with stage := .phaseTwo committing vote (remNodes \ nodes) }
            [(id, .p2c transaction.tid vote)]) := by
  obtain ⟨transaction, found, stepped⟩ := exists_of_bind stepped
  have present := present_of_finishing found
  split at stepped
  · next committing vote remNodes stage =>
      refine ⟨transaction, committing, vote, remNodes, present, stage, ?_⟩
      split at stepped
      · next none' => exact .inl ⟨none', (Except.ok.inj stepped).symm⟩
      · next remain =>
          obtain ⟨world₁, served, stepped⟩ := exists_of_bind stepped
          obtain ⟨server', handled, rfl⟩ := World.serve_eq_ok served
          split at stepped
          · next nodes replied =>
              obtain rfl := Except.ok.inj stepped
              refine .inr ⟨server', nodes, remain, handled, ?_, rfl⟩
              simpa [World.sent] using replied
          · exact absurd stepped (by simp)
  · exact absurd stepped (by simp)

/-- How `commit` or `abort` is called. -/
theorem finish_cases {committing : Bool}
    (stepped : world.step mapper (.finish id committing) = .ok world') :
    ∃ transaction, world.ready id = .ok transaction ∧
      world' = world.store id
        { transaction with stage := .phaseOne committing transaction.writeNodes true } := by
  obtain ⟨transaction, found, stepped⟩ := exists_of_bind stepped
  exact ⟨transaction, found, (Except.ok.inj stepped).symm⟩

end Mvtx.Cluster
