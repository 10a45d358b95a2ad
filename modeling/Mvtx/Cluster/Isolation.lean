import Mvtx.Cluster.Partial
import Mvtx.Cluster.Serializable
import Mvtx.Server.Ownership

/-!
# Transactions of different clients

What the server keeps for a transaction it keeps under its ID.  As long as no two
transactions have the same ID, each of them leaves the writes and the locks of the
others alone, though it freezes the read locks that it shares.  The generators of
two processes draw the same IDs, and then the `TP2C` of one transaction ends the
other.
-/

namespace Mvtx.Cluster

open Lib Lock Server

/-- A transaction gets the next ID of the generator of its process. -/
def Drawn (world : World) : Move → Prop
  | .start process tid _ => tid = (genTransactionID (world.curIds process)).1
  | .read _ _ _ | .write _ _ _ | .finish _ _ | .phaseOne _ _ | .phaseTwo _ => True

instance (world : World) (move : Move) : Decidable (Drawn world move) :=
  match move with
  | .start process tid _ =>
      inferInstanceAs (Decidable (tid = (genTransactionID (world.curIds process)).1))
  | .read _ _ _ | .write _ _ _ | .finish _ _ | .phaseOne _ _ | .phaseTwo _ =>
      inferInstanceAs (Decidable True)

/--
A transaction begins with an ID that no other has and a 64-bit timestamp, and an
abort reaches the server only while its transaction shares no lock.
-/
def ToldApart (world : World) : Move → Prop
  | .start _ tid startTs => startTs ≤ uintMax ∧
      ∀ id < world.begun, (world.transactions id).map (·.tid) ≠ some tid
  | .phaseTwo id => ∀ transaction ∈ world.transactions id, transaction.Aborts →
      world.server.lockManager.SoleHolder transaction.tid
  | .read _ _ _ | .write _ _ _ | .finish _ _ | .phaseOne _ _ => True

instance (world : World) (move : Move) : Decidable (ToldApart world move) :=
  match move with
  | .start _ tid startTs => inferInstanceAs (Decidable (startTs ≤ uintMax ∧
      ∀ id < world.begun, (world.transactions id).map (·.tid) ≠ some tid))
  | .phaseTwo id => inferInstanceAs (Decidable (∀ transaction ∈ world.transactions id,
      transaction.Aborts → world.server.lockManager.SoleHolder transaction.tid))
  | .read _ _ _ | .write _ _ _ | .finish _ _ | .phaseOne _ _ => inferInstanceAs (Decidable True)

/--
A step leaves what the server keeps for a transaction: its writes are neither installed
nor discarded, and it has its locks, though a read lock may have been frozen by
another transaction that commits and has it too.
-/
structure Untouched (world world' : World) (move : Move) (transaction : Transaction) : Prop where
  writes : (world.server.pendWrites transaction.tid).getD [] <+:
    (world'.server.pendWrites transaction.tid).getD []
  prepared : world.server.rdyToCommit transaction.tid ≠ none →
    world'.server.rdyToCommit transaction.tid ≠ none
  locks : ∀ key ts status, world.server.lockManager.Holds transaction.tid key ts status →
    world'.server.lockManager.Holds transaction.tid key ts status ∨
      status = .readLock ∧ world'.server.lockManager.statusAt key ts = some .freezeReadLock ∧
        ∃ other current, move = .phaseTwo other ∧ world.transactions other = some current ∧
          current.tid ≠ transaction.tid ∧ current.CommitsNext ∧
          world.server.lockManager.Holds current.tid key ts .readLock

variable {world world' : World} {move : Move} {mapper : Nat → Nat} {nodes : Finset Nat}
  {id : Nat} {transaction : Transaction}

/-! ## What a step does -/

/-- A transaction begins, or one goes on and has at most one request handled. -/
inductive Turn (mapper : Nat → Nat) (world : World) : Move → World → Prop where
  | start
      {process tid startTs : Nat}
      {world' : World}
      (stepped : world.step mapper (.start process tid startTs) = .ok world') :
      Turn mapper world (.start process tid startTs) world'
  | silent
      {move : Move}
      {id : Nat}
      {transaction transaction' : Transaction}
      (present : world.transactions id = some transaction)
      (tid : transaction'.tid = transaction.tid)
      (startTs : transaction'.startTs = transaction.startTs) :
      Turn mapper world move (world.store id transaction')
  | serve
      {move : Move}
      {id event : Nat}
      {unset : Bool}
      {transaction transaction' : Transaction}
      {request : Request}
      {server' : SimpleTServer}
      (present : world.transactions id = some transaction)
      (tid : transaction'.tid = transaction.tid)
      (startTs : transaction'.startTs = transaction.startTs)
      (handled : Handled mapper world.server (world.sent + 1) event unset request server')
      (owner : request.tid = transaction.tid)
      (wired : transaction.startTs ≤ uintMax → request.Wired)
      (ends : ∀ tid vote, request = .p2c tid vote → move = .phaseTwo id ∧
        if vote then transaction.CommitsNext else transaction.Aborts) :
      Turn mapper world move (world.after server' id transaction' [(id, request)])

theorem turn_of_step (stepped : world.step mapper move = .ok world') :
    Turn mapper world move world' := by
  cases move with
  | start => exact .start stepped
  | read id key event =>
      obtain ⟨transaction, found, cases⟩ := read_cases stepped
      obtain ⟨-, current, proceeds, -⟩ := proceeds_ready found
      rcases cases with ⟨value, -, rfl⟩ | ⟨server', -, -, handled, rfl⟩
      · exact .silent proceeds.present proceeds.tid proceeds.startTs
      · exact .serve proceeds.present proceeds.tid proceeds.startTs handled proceeds.tid
          (fun bound => proceeds.startTs.le.trans bound) (by simp)
  | write id key value =>
      obtain ⟨transaction, server', found, handled, rfl⟩ := write_cases stepped
      obtain ⟨-, current, proceeds, -⟩ := proceeds_ready found
      exact .serve proceeds.present proceeds.tid proceeds.startTs handled proceeds.tid
        (fun _ => trivial) (by simp)
  | finish id committing =>
      obtain ⟨transaction, found, rfl⟩ := finish_cases stepped
      obtain ⟨-, current, proceeds, -⟩ := proceeds_ready found
      exact .silent proceeds.present proceeds.tid proceeds.startTs
  | phaseOne id unset =>
      obtain ⟨transaction, committing, remNodes, vote, present, -, ⟨-, rfl⟩ |
        ⟨server', nodes, vote', -, handled, -, rfl⟩⟩ := phaseOne_cases stepped
      · exact .silent present rfl rfl
      · exact .serve present rfl rfl handled rfl (fun bound => ⟨rfl, bound⟩) (by simp)
  | phaseTwo id =>
      obtain ⟨transaction, committing, vote, remNodes, present, stage, ⟨-, rfl⟩ |
        ⟨server', nodes, remain, handled, -, rfl⟩⟩ := phaseTwo_cases stepped
      · exact .silent present rfl rfl
      · refine .serve present rfl rfl handled rfl (fun _ => trivial) ?_
        rintro tid vote' same
        obtain ⟨-, rfl⟩ := Request.p2c.inj same
        refine ⟨rfl, ?_⟩
        cases vote with
        | true => simp [Transaction.CommitsNext, stage, remain]
        | false => simp [Transaction.Aborts, stage, remain]

/-! ## The invariant -/

/-- No two transactions have the same ID, and no free lock has a holder. -/
structure Separate (world : World) : Prop where
  sound : world.server.Sound
  tidy : world.server.lockManager.Tidy
  wired : ∀ id transaction, world.transactions id = some transaction →
    transaction.startTs ≤ uintMax
  begun : ∀ id, world.transactions id ≠ none → id < world.begun
  distinct : ∀ id id' transaction transaction', world.transactions id = some transaction →
    world.transactions id' = some transaction' → transaction.tid = transaction'.tid → id = id'

namespace Separate

theorem serving (nodes : Finset Nat) : Separate (.serving nodes) where
  sound :=
    { lockManager := .empty
      reads := by simp [World.serving, SimpleTServer.initial] }
  tidy := tidy_empty
  wired := by simp [World.serving, World.first]
  begun := by simp [World.serving, World.first]
  distinct := by simp [World.serving, World.first]

theorem start {process tid startTs : Nat} (separate : Separate world)
    (permitted : ToldApart world (.start process tid startTs))
    (stepped : world.step mapper (.start process tid startTs) = .ok world') :
    Separate world' := by
  obtain ⟨bound, new⟩ := permitted
  obtain rfl := Except.ok.inj stepped
  have apart : ∀ id transaction, world.transactions id = some transaction →
      transaction.tid ≠ tid := by
    intro id transaction present same
    have begun := separate.begun id (by simp [present])
    exact new id begun (by simp [present, same])
  refine
    { sound := separate.sound
      tidy := separate.tidy
      wired := fun id transaction present => ?_
      begun := fun id some' => ?_
      distinct := fun id id' transaction transaction' present present' same => ?_ }
  · rcases World.start_cases present with ⟨-, rfl⟩ | old
    · exact bound
    · exact separate.wired id transaction old
  · obtain ⟨transaction, present⟩ := Option.ne_none_iff_exists'.1 some'
    rcases World.start_cases present with ⟨rfl, -⟩ | old
    · exact Nat.lt_succ_self _
    · exact (separate.begun id (by simp [old])).trans (Nat.lt_succ_self _)
  · rcases World.start_cases present with ⟨rfl, rfl⟩ | old <;>
      rcases World.start_cases present' with ⟨rfl, rfl⟩ | old'
    · rfl
    · exact absurd same.symm (apart _ _ old')
    · exact absurd same (apart _ _ old)
    · exact separate.distinct _ _ _ _ old old' same

/-- A transaction goes on. -/
theorem after {transaction' : Transaction} {server' : SimpleTServer}
    {more : List (Nat × Request)} (separate : Separate world)
    (present : world.transactions id = some transaction)
    (tid : transaction'.tid = transaction.tid)
    (startTs : transaction'.startTs = transaction.startTs) (sound : server'.Sound)
    (tidy : server'.lockManager.Tidy) : Separate (world.after server' id transaction' more) where
  sound := sound
  tidy := tidy
  wired := by
    intro other current here
    rcases World.after_cases here with ⟨-, rfl⟩ | ⟨-, old⟩
    · exact startTs ▸ separate.wired id transaction present
    · exact separate.wired other current old
  begun := by
    intro other some'
    obtain ⟨current, here⟩ := Option.ne_none_iff_exists'.1 some'
    rcases World.after_cases here with ⟨rfl, -⟩ | ⟨-, old⟩
    · exact separate.begun other (by simp [present])
    · exact separate.begun other (by simp [old])
  distinct := by
    intro first second current current' here here' same
    rcases World.after_cases here with ⟨rfl, rfl⟩ | ⟨-, old⟩ <;>
      rcases World.after_cases here' with ⟨rfl, rfl⟩ | ⟨-, old'⟩
    · rfl
    · exact separate.distinct _ _ _ _ present old' (tid.symm.trans same)
    · exact separate.distinct _ _ _ _ old present (same.trans tid)
    · exact separate.distinct _ _ _ _ old old' same

/-- The locks that the next request of a transaction gives up are not shared. -/
theorem sole_of_ends {request : Request} (permitted : ToldApart world move)
    (present : world.transactions id = some transaction) (owner : request.tid = transaction.tid)
    (ends : ∀ tid vote, request = .p2c tid vote → move = .phaseTwo id ∧
      if vote then transaction.CommitsNext else transaction.Aborts) :
    ∀ tid, request = .p2c tid false → world.server.lockManager.SoleHolder tid := by
  rintro tid rfl
  obtain ⟨rfl, aborts⟩ := ends tid false rfl
  obtain rfl : tid = transaction.tid := owner
  exact permitted transaction present (by simpa using aborts)

theorem step (separate : Separate world) (permitted : ToldApart world move)
    (stepped : world.step mapper move = .ok world') : Separate world' := by
  cases turn_of_step stepped with
  | start stepped => exact separate.start permitted stepped
  | silent present tid startTs =>
      rw [← World.after_nil]
      exact separate.after present tid startTs separate.sound separate.tidy
  | serve present tid startTs handled owner wired ends =>
      have isWired := wired (separate.wired _ _ present)
      exact separate.after present tid startTs (separate.sound.handled isWired handled)
        (handled.keeps separate.sound separate.tidy isWired
          (sole_of_ends permitted present owner ends)).1

end Separate

/-- What leaves the server alone. -/
theorem untouched_of_server (same : world'.server = world.server) (move : Move)
    (transaction : Transaction) : Untouched world world' move transaction where
  writes := by rw [same]
  prepared := by
    rw [same]
    exact fun ready => ready
  locks := by
    rw [same]
    exact fun _ _ _ holds => .inl holds

/-- A step of a transaction leaves the others alone. -/
theorem untouched_of_step (separate : Separate world) (permitted : ToldApart world move)
    (stepped : world.step mapper move = .ok world')
    (present : world.transactions id = some transaction) (others : move ≠ .phaseTwo id) :
    Untouched world world' move transaction := by
  cases turn_of_step stepped with
  | start stepped =>
      obtain rfl := Except.ok.inj stepped
      refine untouched_of_server ?_ _ _
      rfl
  | silent =>
      refine untouched_of_server ?_ _ _
      rfl
  | @serve _ other _ _ current _ request server' here tid startTs handled owner wired ends =>
      have keeps := (handled.keeps separate.sound separate.tidy (wired (separate.wired _ _ here))
        (Separate.sole_of_ends permitted here owner ends)).2 transaction.tid
      have keeps := keeps fun vote same => by
        obtain ⟨rfl, -⟩ := ends _ vote same
        rw [same] at owner
        exact others (by rw [separate.distinct _ _ _ _ here present owner.symm])
      refine ⟨keeps.writes, keeps.prepared, fun key ts status holds => ?_⟩
      refine (keeps.locks key ts status holds).imp_right ?_
      rintro ⟨read, frozen, holder, differs, rfl, shared⟩
      obtain ⟨rfl, commits⟩ := ends holder true rfl
      obtain rfl : holder = current.tid := owner
      exact ⟨read, frozen, other, current, rfl, here, differs, by simpa using commits, shared⟩

end Mvtx.Cluster
