import Mvtx.Cluster.Proceeds
import Mvtx.Server.Books
import Mvtx.Server.Wired

/-!
# Commits after a refused write

A server turns down the writes to keys of nodes that it does not serve, and
the Coordinator does not look at the reply.  Whether the transaction commits
is decided by its other writes alone: `TP1C` is turned down if there are none,
and gets no lock for a key that is among them twice.
-/

namespace Mvtx.Cluster

open Lib Lock Server

/-- Whether a request is a write. -/
def isWrite : Request → Bool
  | .write _ _ _ => true
  | .read _ _ _ | .p1c _ _ _ _ _ | .p2c _ _ => false

namespace World

/-- The first state, with a server that serves some nodes. -/
def serving (nodes : Finset Nat) : World :=
  { World.first with server := { SimpleTServer.initial with nodes := nodes } }

/-- The server has answered a write of a transaction with a status that is false. -/
def Refused (world : World) (id : Nat) : Prop :=
  ∃ index < world.sent,
    (∃ entry ∈ world.handled[index]?, entry.1 = id ∧ isWrite entry.2 = true) ∧
      world.server.replies (index + 1) = some (.write false)

instance (world : World) (id : Nat) : Decidable (world.Refused id) :=
  inferInstanceAs (Decidable (∃ index < world.sent, _ ∧ _))

end World

/-- The keys that the server has accepted under an ID, in the order of the writes. -/
def World.accepted (mapper : Nat → Nat) (world : World) (tid : Nat) : List Nat :=
  acceptedKeys mapper world.server.nodes tid (world.handled.map (·.2))

/-- Some writes under an ID have been accepted, and no two of them for the same key. -/
def World.Lockable (mapper : Nat → Nat) (world : World) (tid : Nat) : Prop :=
  world.accepted mapper tid ≠ [] ∧ (world.accepted mapper tid).Nodup

instance (mapper : Nat → Nat) (world : World) (tid : Nat) :
    Decidable (world.Lockable mapper tid) :=
  inferInstanceAs (Decidable (_ ∧ _))

/--
A Coordinator is created with an ID that no other has and a 64-bit timestamp, and
`commit` is not called after a refused write if other writes of the transaction
have been accepted, all for different keys.
-/
def Undivided (mapper : Nat → Nat) (world : World) : Move → Prop
  | .start _ tid startTs => startTs ≤ uintMax ∧
      ∀ id < world.begun, (world.transactions id).map (·.tid) ≠ some tid
  | .finish id committing => committing = true → world.Refused id →
      ∀ transaction ∈ world.transactions id, ¬ world.Lockable mapper transaction.tid
  | .read _ _ _ | .write _ _ _ | .phaseOne _ _ | .phaseTwo _ => True

instance (mapper : Nat → Nat) (world : World) (move : Move) :
    Decidable (Undivided mapper world move) :=
  match move with
  | .start _ tid startTs => inferInstanceAs (Decidable (startTs ≤ uintMax ∧
      ∀ id < world.begun, (world.transactions id).map (·.tid) ≠ some tid))
  | .finish id committing => inferInstanceAs (Decidable (committing = true → world.Refused id →
      ∀ transaction ∈ world.transactions id, ¬ world.Lockable mapper transaction.tid))
  | .read _ _ _ | .write _ _ _ | .phaseOne _ _ | .phaseTwo _ => inferInstanceAs (Decidable True)

/-! ## The invariant -/

/-- A transaction that has written and will not commit. -/
def Transaction.Barred (transaction : Transaction) : Prop :=
  transaction.writeNodes ≠ ∅ ∧
    match transaction.stage with
    | .active | .reading _ _ _ => True
    | .phaseOne committing remNodes vote => (committing && vote) = true → remNodes ≠ ∅
    | .phaseTwo _ vote _ | .ended _ vote => vote = false

/-- A transaction whose votes are not in yet. -/
def Transaction.Undecided (transaction : Transaction) : Prop :=
  match transaction.stage with
  | .active | .reading _ _ _ | .phaseOne _ _ _ => True
  | .phaseTwo _ _ _ | .ended _ _ => False

/-- A transaction in the loop for `TP1C` of `commit`. -/
def Transaction.Committing (transaction : Transaction) : Prop :=
  match transaction.stage with
  | .phaseOne committing _ _ => committing = true
  | .active | .reading _ _ _ | .phaseTwo _ _ _ | .ended _ _ => False

/-- A transaction that commits. -/
def Transaction.Commits (transaction : Transaction) : Prop :=
  match transaction.stage with
  | .phaseTwo _ vote _ | .ended _ vote => vote = true
  | .active | .reading _ _ _ | .phaseOne _ _ _ => False

theorem Transaction.Barred.not_commits {transaction : Transaction} (barred : transaction.Barred) :
    ¬ transaction.Commits := by
  have decided := barred.2
  unfold Transaction.Commits
  split at decided <;> simp_all

/--
A transaction with a refused write is barred, and only those that commit have
committed; the server has the accepted writes of a transaction under its ID.
-/
structure Guarded (mapper : Nat → Nat) (world : World) : Prop where
  sound : world.server.Sound
  wired : ∀ id transaction, world.transactions id = some transaction →
    transaction.startTs ≤ uintMax
  begun : ∀ id, world.transactions id ≠ none → id < world.begun
  owned : ∀ entry ∈ world.handled, ∃ transaction, world.transactions entry.1 = some transaction ∧
    entry.2.tid = transaction.tid
  distinct : ∀ id id' transaction transaction', world.transactions id = some transaction →
    world.transactions id' = some transaction' → transaction.tid = transaction'.tid → id = id'
  answered : ∀ index entry, world.handled[index]? = some entry → isWrite entry.2 = true →
    world.server.replies (index + 1) ≠ none
  books : Booked mapper (world.handled.map (·.2)) world.server
  undecided : ∀ id transaction, world.transactions id = some transaction →
    transaction.Undecided → ∀ tid vote, (id, .p2c tid vote) ∉ world.handled
  divided : ∀ id transaction, world.transactions id = some transaction →
    transaction.Committing → world.Refused id → ¬ world.Lockable mapper transaction.tid
  barred : ∀ id transaction, world.transactions id = some transaction → world.Refused id →
    transaction.Barred
  committed : ∀ id tid transaction, world.transactions id = some transaction →
    (id, Request.p2c tid true) ∈ world.handled → transaction.Commits

namespace Guarded

variable {world world' : World} {id event : Nat} {unset : Bool} {request : Request}
  {transaction transaction' : Transaction} {server' : SimpleTServer} {mapper : Nat → Nat}

theorem serving (nodes : Finset Nat) : Guarded mapper (.serving nodes) where
  sound :=
    { lockManager := .empty
      reads := by simp [World.serving, SimpleTServer.initial] }
  wired := by simp [World.serving, World.first]
  begun := by simp [World.serving, World.first]
  owned := by simp [World.serving, World.first]
  distinct := by simp [World.serving, World.first]
  answered := by simp [World.serving, World.first]
  books := .initial nodes
  undecided := by simp [World.serving, World.first]
  divided := by simp [World.serving, World.first]
  barred := by simp [World.serving, World.first]
  committed := by simp [World.serving, World.first]

/-- A write that is refused after a step was refused before, or it is a request of the step. -/
theorem refused_of_after (guarded : Guarded mapper world) {more : List (Nat × Request)}
    {other : Nat}
    (kept : ∀ rid reply, world.server.replies rid = some reply →
      server'.replies rid = some reply)
    (silent : ∀ entry ∈ more, entry.1 = other → isWrite entry.2 = false)
    (refused : (world.after server' id transaction' more).Refused other) :
    world.Refused other := by
  obtain ⟨index, -, ⟨entry, member, owner, write⟩, replied⟩ := refused
  have member : (world.handled ++ more)[index]? = some entry := member
  by_cases old : index < world.handled.length
  · rw [List.getElem?_append_left old] at member
    refine ⟨index, old, ⟨entry, member, owner, write⟩, ?_⟩
    obtain ⟨reply, sent⟩ := Option.ne_none_iff_exists'.1 (guarded.answered index entry member write)
    exact sent.trans ((kept _ _ sent).symm.trans replied)
  · rw [List.getElem?_append_right (by omega)] at member
    have silent := silent entry (List.mem_of_getElem? member) owner
    exact absurd (write.symm.trans silent) (by decide)

/-- What has been accepted under an ID changes with its own writes only. -/
theorem accepted_after {more : List (Nat × Request)} {tid : Nat}
    (nodes : server'.nodes = world.server.nodes)
    (silent : ∀ entry ∈ more, isWrite entry.2 = true → entry.2.tid ≠ tid) :
    (world.after server' id transaction' more).accepted mapper tid =
      world.accepted mapper tid := by
  have none' : ∀ request ∈ more.map (·.2),
      acceptedKey mapper world.server.nodes tid request = none := by
    intro request member
    obtain ⟨entry, isMore, rfl⟩ := List.mem_map.1 member
    have silent := silent entry isMore
    unfold acceptedKey
    split
    · next owner key value written =>
        rw [written] at silent
        simp [show owner ≠ tid from silent rfl]
    · rfl
    · rfl
    · rfl
  show acceptedKeys mapper server'.nodes tid ((world.handled ++ more).map (·.2)) = _
  rw [nodes, acceptedKeys, List.map_append, List.filterMap_append,
    List.filterMap_eq_nil_iff.2 none', List.append_nil]
  rfl

/-- A transaction goes on, and the server handles at most a request of it. -/
theorem change (guarded : Guarded mapper world) {more : List (Nat × Request)}
    (present : world.transactions id = some transaction)
    (tid : transaction'.tid = transaction.tid)
    (startTs : transaction'.startTs = transaction.startTs) (sound : server'.Sound)
    (nodes : server'.nodes = world.server.nodes)
    (kept : ∀ rid reply, world.server.replies rid = some reply →
      server'.replies rid = some reply)
    (own : ∀ entry ∈ more, entry.1 = id ∧ entry.2.tid = transaction.tid)
    (answered : ∀ index entry, more[index]? = some entry → isWrite entry.2 = true →
      server'.replies (world.sent + index + 1) ≠ none)
    (books : Booked mapper ((world.handled ++ more).map (·.2)) server')
    (undecided : transaction'.Undecided →
      transaction.Undecided ∧ ∀ entry ∈ more, ∀ tid vote, entry.2 ≠ .p2c tid vote)
    (divided : transaction'.Committing → (world.after server' id transaction' more).Refused id →
      ¬ (world.after server' id transaction' more).Lockable mapper transaction.tid)
    (barred : (world.after server' id transaction' more).Refused id → transaction'.Barred)
    (commits : transaction.Commits → transaction'.Commits)
    (committed : ∀ tid, (id, Request.p2c tid true) ∈ more → transaction'.Commits) :
    Guarded mapper (world.after server' id transaction' more) where
  sound := sound
  wired := by
    intro other current here
    rcases World.after_cases here with ⟨-, rfl⟩ | ⟨-, old⟩
    · exact startTs ▸ guarded.wired id transaction present
    · exact guarded.wired other current old
  begun := by
    intro other some
    obtain ⟨current, here⟩ := Option.ne_none_iff_exists'.1 some
    rcases World.after_cases here with ⟨rfl, -⟩ | ⟨-, old⟩
    · exact guarded.begun other (by simp [present])
    · exact guarded.begun other (by simp [old])
  owned := by
    intro entry member
    rcases List.mem_append.1 member with old | new
    · obtain ⟨current, here, owner⟩ := guarded.owned entry old
      by_cases same : entry.1 = id
      · rw [same, present] at here
        obtain rfl := Option.some.inj here
        exact ⟨transaction', same ▸ World.after_self, owner.trans tid.symm⟩
      · exact ⟨current, World.after_of_ne here same, owner⟩
    · obtain ⟨same, owner⟩ := own entry new
      exact ⟨transaction', same ▸ World.after_self, owner.trans tid.symm⟩
  distinct := by
    intro first second current current' here here' same
    rcases World.after_cases here with ⟨rfl, rfl⟩ | ⟨-, old⟩ <;>
      rcases World.after_cases here' with ⟨rfl, rfl⟩ | ⟨-, old'⟩
    · rfl
    · exact guarded.distinct _ _ _ _ present old' (tid.symm.trans same)
    · exact guarded.distinct _ _ _ _ old present (same.trans tid)
    · exact guarded.distinct _ _ _ _ old old' same
  answered := by
    intro index entry member write
    have member : (world.handled ++ more)[index]? = some entry := member
    by_cases old : index < world.handled.length
    · rw [List.getElem?_append_left old] at member
      obtain ⟨reply, sent⟩ :=
        Option.ne_none_iff_exists'.1 (guarded.answered index entry member write)
      exact Option.ne_none_iff_exists'.2 ⟨reply, kept _ _ sent⟩
    · rw [List.getElem?_append_right (by omega)] at member
      have := answered _ _ member write
      rwa [World.sent, show world.handled.length + (index - world.handled.length) = index by omega]
        at this
  books := books
  undecided := by
    intro other current here open' owner vote member
    rcases World.after_cases here with ⟨rfl, rfl⟩ | ⟨differs, old⟩
    · obtain ⟨before, none'⟩ := undecided open'
      rcases List.mem_append.1 member with old | new
      · exact guarded.undecided other transaction present before owner vote old
      · exact none' _ new owner vote rfl
    · rcases List.mem_append.1 member with before | new
      · exact guarded.undecided other current old open' owner vote before
      · exact differs (own _ new).1
  divided := by
    intro other current here committing refused
    rcases World.after_cases here with ⟨rfl, rfl⟩ | ⟨differs, old⟩
    · rw [tid]
      exact divided committing refused
    · have apart : transaction.tid ≠ current.tid := fun same =>
        differs (guarded.distinct _ _ _ _ old present same.symm)
      rw [World.Lockable, accepted_after nodes fun entry member _ => (own entry member).2 ▸ apart]
      exact guarded.divided other current old committing (guarded.refused_of_after kept
        (fun entry member owner => absurd (owner.symm.trans (own entry member).1) differs) refused)
  barred := by
    intro other current here refused
    rcases World.after_cases here with ⟨rfl, rfl⟩ | ⟨differs, old⟩
    · exact barred refused
    · exact guarded.barred other current old (guarded.refused_of_after kept
        (fun entry member owner => absurd (owner.symm.trans (own entry member).1) differs) refused)
  committed := by
    intro other owner current here member
    rcases World.after_cases here with ⟨rfl, rfl⟩ | ⟨differs, old⟩
    · rcases List.mem_append.1 member with before | new
      · exact commits (guarded.committed other owner transaction present before)
      · exact committed owner new
    · rcases List.mem_append.1 member with before | new
      · exact guarded.committed other owner current old before
      · exact absurd (own _ new).1 differs

/-- A transaction goes on without a request. -/
theorem store (guarded : Guarded mapper world)
    (present : world.transactions id = some transaction)
    (tid : transaction'.tid = transaction.tid)
    (startTs : transaction'.startTs = transaction.startTs)
    (undecided : transaction'.Undecided → transaction.Undecided)
    (divided : transaction'.Committing → world.Refused id →
      ¬ world.Lockable mapper transaction.tid)
    (barred : transaction.Barred → transaction'.Barred)
    (commits : transaction.Commits → transaction'.Commits) :
    Guarded mapper (world.store id transaction') := by
  rw [← World.after_nil]
  have refusedBefore : (world.after world.server id transaction' []).Refused id →
      world.Refused id := guarded.refused_of_after (fun _ _ sent => sent) (by simp)
  refine guarded.change present tid startTs guarded.sound rfl (fun _ _ sent => sent) (by simp)
    (by simp) (by simpa using guarded.books) (fun open' => ⟨undecided open', by simp⟩)
    (fun committing refused => ?_) (fun refused => barred ?_) commits (by simp)
  · rw [World.Lockable, accepted_after rfl (by simp)]
    exact divided committing (refusedBefore refused)
  · exact guarded.barred id transaction present (refusedBefore refused)

/-- A transaction goes on with a request that is not a write. -/
theorem serve (guarded : Guarded mapper world)
    (present : world.transactions id = some transaction)
    (tid : transaction'.tid = transaction.tid)
    (startTs : transaction'.startTs = transaction.startTs)
    (handled : Handled mapper world.server (world.sent + 1) event unset request server')
    (owner : request.tid = transaction.tid) (wired : request.Wired)
    (noWrite : isWrite request = false)
    (undecided : transaction'.Undecided →
      transaction.Undecided ∧ ∀ tid vote, request ≠ .p2c tid vote)
    (divided : transaction'.Committing → transaction.Committing)
    (barred : world.Refused id → transaction.Barred → transaction'.Barred)
    (commits : transaction.Commits → transaction'.Commits)
    (committed : ∀ tid, request = .p2c tid true → transaction'.Commits) :
    Guarded mapper (world.after server' id transaction' [(id, request)]) := by
  have refusedBefore : (world.after server' id transaction' [(id, request)]).Refused id →
      world.Refused id := guarded.refused_of_after handled.touches.kept (by simp [noWrite])
  refine guarded.change present tid startTs (guarded.sound.handled wired handled)
    handled.touches.nodes handled.touches.kept (by simp [owner]) ?_ ?_ ?_ ?_ (fun refused => ?_)
    commits ?_
  · intro index entry member write
    obtain rfl : entry = (id, request) := by simpa using List.mem_of_getElem? member
    exact absurd (write.symm.trans noWrite) (by decide)
  · rw [List.map_append]
    exact guarded.books.handled handled
  · refine fun open' => ⟨(undecided open').1, fun entry member => ?_⟩
    obtain rfl : entry = (id, request) := List.mem_singleton.1 member
    exact (undecided open').2
  · intro committing refused
    rw [World.Lockable, accepted_after handled.touches.nodes (by simp [noWrite])]
    exact guarded.divided id transaction present (divided committing) (refusedBefore refused)
  · exact barred (refusedBefore refused)
      (guarded.barred id transaction present (refusedBefore refused))
  · intro tid member
    obtain ⟨-, same⟩ : id = id ∧ Request.p2c tid true = request := by simpa using member
    exact committed tid same.symm

/-! ## The steps -/

theorem start {process tid startTs : Nat} (guarded : Guarded mapper world)
    (bound : startTs ≤ uintMax)
    (new : ∀ id < world.begun, (world.transactions id).map (·.tid) ≠ some tid)
    (stepped : world.step mapper (.start process tid startTs) = .ok world') :
    Guarded mapper world' := by
  obtain rfl := Except.ok.inj stepped
  have fresh : ∀ entry ∈ world.handled, entry.1 ≠ world.begun := fun entry member => by
    obtain ⟨transaction, here, -⟩ := guarded.owned entry member
    exact (guarded.begun _ (by simp [here])).ne
  have nobody : ∀ id transaction, world.transactions id = some transaction →
      transaction.tid ≠ tid := fun id transaction here same =>
    new id (guarded.begun id (by simp [here])) (by simp [here, same])
  refine
    { sound := guarded.sound
      wired := fun id transaction here => ?_
      begun := fun id some => ?_
      owned := fun entry member => ?_
      distinct := fun first second transaction transaction' here here' same => ?_
      answered := guarded.answered
      books := guarded.books
      undecided := fun id transaction here open' tid vote member => ?_
      divided := fun id transaction here committing refused => ?_
      barred := fun id transaction here refused => ?_
      committed := fun id tid' transaction here member => ?_ }
  · rcases World.start_cases here with ⟨-, rfl⟩ | old
    · exact bound
    · exact guarded.wired id transaction old
  · obtain ⟨transaction, here⟩ := Option.ne_none_iff_exists'.1 some
    rcases World.start_cases here with ⟨rfl, -⟩ | old
    · exact Nat.lt_succ_self _
    · exact (guarded.begun id (by simp [old])).trans (Nat.lt_succ_self _)
  · obtain ⟨transaction, here, owner⟩ := guarded.owned entry member
    exact ⟨transaction, (Function.update_of_ne (fresh entry member) _ _).trans here, owner⟩
  · rcases World.start_cases here with ⟨rfl, rfl⟩ | old <;>
      rcases World.start_cases here' with ⟨rfl, rfl⟩ | old'
    · rfl
    · exact absurd same.symm (nobody _ _ old')
    · exact absurd same (nobody _ _ old)
    · exact guarded.distinct _ _ _ _ old old' same
  · rcases World.start_cases here with ⟨rfl, -⟩ | old
    · exact fresh _ member rfl
    · exact guarded.undecided id transaction old open' tid vote member
  · rcases World.start_cases here with ⟨-, rfl⟩ | old
    · simp [Transaction.Committing, Transaction.new] at committing
    · exact guarded.divided id transaction old committing refused
  · rcases World.start_cases here with ⟨rfl, -⟩ | old
    · obtain ⟨index, -, ⟨entry, member, owner, -⟩, -⟩ := refused
      exact absurd owner (fresh entry (List.mem_of_getElem? member))
    · exact guarded.barred id transaction old refused
  · rcases World.start_cases here with ⟨rfl, -⟩ | old
    · exact absurd rfl (fresh _ member)
    · exact guarded.committed id tid' transaction old member

theorem not_commits_of_active (stage : transaction.stage = .active) : ¬ transaction.Commits := by
  simp [Transaction.Commits, stage]

theorem not_committing_of_active (stage : transaction.stage = .active) :
    ¬ transaction.Committing := by
  simp [Transaction.Committing, stage]

theorem undecided_of_active (stage : transaction.stage = .active) : transaction.Undecided := by
  simp [Transaction.Undecided, stage]

/-- A transaction that is ready has collected the reply to its last read. -/
theorem ready (guarded : Guarded mapper world) (found : world.ready id = .ok transaction) :
    transaction.stage = .active ∧ Guarded mapper (world.store id transaction) := by
  obtain ⟨stage, current, proceeds, collected⟩ := proceeds_ready found
  refine ⟨stage, guarded.store proceeds.present proceeds.tid proceeds.startTs (fun _ => ?_)
    (fun committing => absurd committing (not_committing_of_active stage)) (fun barred => ?_)
    (fun commits => ?_)⟩
  · rcases collected with rfl | ⟨_, _, _, _, _, reading, -, rfl⟩
    · exact undecided_of_active stage
    · simp [Transaction.Undecided, reading]
  · rcases collected with rfl | ⟨_, _, _, _, _, -, -, rfl⟩
    · exact barred
    · exact ⟨barred.1, trivial⟩
  · rcases collected with rfl | ⟨_, _, _, _, _, reading, -, rfl⟩
    · exact commits
    · simp [Transaction.Commits, reading] at commits

theorem read {key : Nat} (guarded : Guarded mapper world)
    (stepped : world.step mapper (.read id key event) = .ok world') : Guarded mapper world' := by
  obtain ⟨transaction, found, cases⟩ := read_cases stepped
  obtain ⟨stage, guarded'⟩ := guarded.ready found
  have present := World.store_self world id transaction
  rcases cases with ⟨value, -, rfl⟩ | ⟨server', -, -, handled, rfl⟩
  · rw [← World.store_store world id transaction]
    exact guarded'.store present rfl rfl (fun open' => open')
      (fun committing => absurd committing (not_committing_of_active stage))
      (fun barred => barred) (fun commits => commits)
  · rw [← World.after_store world id transaction]
    exact guarded'.serve present rfl rfl handled rfl (guarded'.wired id transaction present) rfl
      (fun _ => ⟨undecided_of_active stage, by simp⟩) (by simp [Transaction.Committing])
      (fun _ barred => ⟨barred.1, trivial⟩)
      (fun commits => absurd commits (not_commits_of_active stage)) (by simp)

theorem write {key : Nat} {value : String} (guarded : Guarded mapper world)
    (stepped : world.step mapper (.write id key value) = .ok world') : Guarded mapper world' := by
  obtain ⟨transaction, server', found, handled, rfl⟩ := write_cases stepped
  obtain ⟨stage, guarded'⟩ := guarded.ready found
  have present := World.store_self world id transaction
  rw [← World.after_store world id transaction]
  have wired : Request.Wired (.write transaction.tid key value) := trivial
  refine guarded'.change present rfl rfl (guarded'.sound.handled wired handled)
    handled.touches.nodes handled.touches.kept (by simp [Request.tid]) ?_ ?_
    (fun _ => ⟨undecided_of_active stage, by simp⟩) (fun committing => ?_) (fun _ => ?_)
    (fun commits => absurd commits (not_commits_of_active stage)) (by simp)
  · intro index entry member _
    obtain rfl : index = 0 := by simpa using (List.getElem?_eq_some_iff.1 member).1
    cases handled <;> simp [SimpleTServer.replied, World.sent, World.store]
  · rw [List.map_append]
    exact guarded'.books.handled handled
  · simp [Transaction.Committing, stage] at committing
  · exact ⟨Finset.insert_ne_empty _ _, by simp [stage]⟩

theorem finish {committing : Bool} (guarded : Guarded mapper world)
    (permitted : Undivided mapper world (.finish id committing))
    (stepped : world.step mapper (.finish id committing) = .ok world') : Guarded mapper world' := by
  obtain ⟨transaction, found, rfl⟩ := finish_cases stepped
  obtain ⟨stage, guarded'⟩ := guarded.ready found
  obtain ⟨-, current, proceeds, -⟩ := proceeds_ready found
  rw [← World.store_store world id transaction]
  refine guarded'.store (World.store_self world id transaction) rfl rfl
    (fun _ => undecided_of_active stage) (fun commits refused => ?_)
    (fun barred => ⟨barred.1, fun _ => barred.1⟩)
    (fun commits => absurd commits (not_commits_of_active stage))
  rw [proceeds.tid]
  exact permitted commits refused current proceeds.present

/-- A `TP1C` that gets all locks is that of a transaction without a refused write. -/
theorem phaseOne (guarded : Guarded mapper world)
    (stepped : world.step mapper (.phaseOne id unset) = .ok world') : Guarded mapper world' := by
  obtain ⟨transaction, committing, remNodes, vote, present, stage, cases⟩ := phaseOne_cases stepped
  have undecided : ¬ transaction.Commits := by simp [Transaction.Commits, stage]
  have isOpen : transaction.Undecided := by simp [Transaction.Undecided, stage]
  rcases cases with ⟨none', rfl⟩ | ⟨server', nodes, vote', remain, handled, replied, rfl⟩
  · refine guarded.store present rfl rfl (fun _ => isOpen) (by simp [Transaction.Committing])
      (fun barred => ⟨barred.1, ?_⟩) (fun commits => absurd commits undecided)
    have open' := barred.2
    simp only [stage, none', ne_eq, not_true_eq_false, imp_false, Bool.not_eq_true] at open'
    exact open'
  · have bound := guarded.wired id transaction present
    refine guarded.serve present rfl rfl handled rfl ⟨rfl, bound⟩ rfl
      (fun _ => ⟨isOpen, by simp⟩) (by simp [Transaction.Committing, stage])
      (fun refused barred => ⟨barred.1, ?_⟩) (fun commits => absurd commits undecided) (by simp)
    intro yes
    obtain ⟨rfl, rfl, rfl⟩ : committing = true ∧ vote = true ∧ vote' = true := by
      simpa [and_assoc] using yes
    cases handled with
    | p1cRefused =>
        obtain ⟨rfl, -⟩ : ∅ = nodes ∧ unset = true := by
          simpa [SimpleTServer.replied] using replied
        simpa using remain
    | @p1c _ _ _ _ _ listed lockManager res known unlocked locked fresh =>
        obtain rfl : res = true := by
          have both := by simpa [SimpleTServer.replied] using replied
          exact both.2
        -- The server has the accepted writes of the transaction, and has locked each of their keys.
        have keys := guarded.books.keys transaction.tid fun vote member => by
          obtain ⟨entry, handled, same⟩ := List.mem_map.1 member
          obtain ⟨current, here, owner⟩ := guarded.owned entry handled
          have isOwn := guarded.distinct _ _ _ _ here present (owner.symm.trans (same ▸ rfl))
          obtain ⟨other, request⟩ := entry
          obtain rfl : other = id := isOwn
          obtain rfl : request = .p2c transaction.tid vote := same
          exact guarded.undecided _ _ present isOpen _ _ handled
        have once := (free_of_lockKeys guarded.sound.lockManager bound locked).1
        rw [keys] at once
        exact absurd ⟨guarded.books.taken transaction.tid (by simp [known]), once⟩
          (guarded.divided id transaction present (by simp [Transaction.Committing, stage]) refused)

theorem phaseTwo (guarded : Guarded mapper world)
    (stepped : world.step mapper (.phaseTwo id) = .ok world') : Guarded mapper world' := by
  obtain ⟨transaction, committing, vote, remNodes, present, stage, cases⟩ := phaseTwo_cases stepped
  rcases cases with ⟨-, rfl⟩ | ⟨server', nodes, -, handled, -, rfl⟩
  · refine guarded.store present rfl rfl (by simp [Transaction.Undecided])
      (by simp [Transaction.Committing]) (fun barred => ⟨barred.1, ?_⟩) (fun commits => ?_)
    · simpa [stage] using barred.2
    · simpa [Transaction.Commits, stage] using commits
  · refine guarded.serve present rfl rfl handled rfl trivial rfl (by simp [Transaction.Undecided])
      (by simp [Transaction.Committing]) (fun _ barred => ⟨barred.1, ?_⟩) (fun commits => ?_)
      (fun tid same => (Request.p2c.inj same).2)
    · simpa [stage] using barred.2
    · simpa [Transaction.Commits, stage] using commits

theorem step {move : Move} (guarded : Guarded mapper world)
    (permitted : Undivided mapper world move)
    (stepped : world.step mapper move = .ok world') : Guarded mapper world' := by
  cases move with
  | start => exact guarded.start permitted.1 permitted.2 stepped
  | read => exact guarded.read stepped
  | write => exact guarded.write stepped
  | finish => exact guarded.finish permitted stepped
  | phaseOne => exact guarded.phaseOne stepped
  | phaseTwo => exact guarded.phaseTwo stepped

end Guarded

variable {mapper : Nat → Nat} {nodes : Finset Nat} {world : World}

/--
Whatever the mapper and the nodes of the server: as long as no `commit` is called
after a refused write while others are accepted, all for different keys, no
`TP2C` that commits is handled for the ID of a transaction with a refused write,
and every version in the store is a write of another transaction, whose `TP2C` has
been.
-/
theorem not_installed_of_reach
    (reached : Reach (World.step mapper) (Undivided mapper) (.serving nodes) world) (id : Nat)
    (transaction : Transaction) (present : world.transactions id = some transaction)
    (refused : world.Refused id) :
    (∀ other, (other, Request.p2c transaction.tid true) ∉ world.handled) ∧
      ∀ key ts value, world.server.version key ts = some value →
        ∃ other tid, other ≠ id ∧ (other, Request.write tid key value) ∈ world.handled ∧
          (other, Request.p2c tid true) ∈ world.handled := by
  have guarded : Guarded mapper world :=
    reached.invariant (.serving nodes) fun _ _ _ guarded permitted stepped =>
      guarded.step permitted stepped
  have uncommitted : ∀ other, (other, Request.p2c transaction.tid true) ∉ world.handled := by
    intro other member
    obtain ⟨current, here, owner⟩ := guarded.owned _ member
    obtain rfl := guarded.distinct _ _ _ _ present here owner
    exact (guarded.barred _ transaction present refused).not_commits
      (guarded.committed _ _ transaction present member)
  refine ⟨uncommitted, fun key ts value found => ?_⟩
  obtain ⟨tid, written, committed⟩ := guarded.books.stored key ts value found
  obtain ⟨⟨other, request⟩, writes, same⟩ := List.mem_map.1 written
  obtain ⟨⟨other', request'⟩, commits, same'⟩ := List.mem_map.1 committed
  obtain rfl : request = _ := same
  obtain rfl : request' = _ := same'
  obtain ⟨current, here, owner⟩ := guarded.owned _ writes
  obtain ⟨current', here', owner'⟩ := guarded.owned _ commits
  obtain rfl : other = other' := guarded.distinct _ _ _ _ here here' (owner.symm.trans owner')
  refine ⟨other, tid, ?_, writes, commits⟩
  rintro rfl
  obtain rfl := Option.some.inj (present.symm.trans here)
  exact uncommitted other (by rwa [show tid = transaction.tid from owner] at commits)

/--
One transaction commits a key.  Of the next one two keys are refused and none
accepted, and of the third one a key is refused and another accepted twice.
-/
theorem not_installed_of_three :
    ∃ world : World, world.server.version 0 4 = some "a" ∧ world.Refused 2 ∧
      (∀ other, (other, Request.p2c 9 true) ∉ world.handled) ∧
      ∃ other tid, other ≠ 2 ∧ (other, Request.write tid 0 "a") ∈ world.handled ∧
        (other, Request.p2c tid true) ∈ world.handled := by
  obtain ⟨world, reached, holds⟩ := exists_reach_of_admits (Undivided id)
    [.start 0 7 4, .write 0 0 "a", .finish 0 true, .phaseOne 0 false, .phaseOne 0 false,
      .phaseTwo 0, .start 0 8 5, .write 1 1 "b", .write 1 2 "c", .start 0 9 6,
      .write 2 0 "d", .write 2 1 "e", .write 2 0 "f", .finish 2 true, .phaseOne 2 false,
      .phaseOne 2 false, .phaseTwo 2]
    (fun world => world.server.version 0 4 = some "a" ∧ world.Refused 2 ∧
      (world.transactions 2).map (·.tid) = some 9)
    (show admits (World.step id) _ (.serving {0}) _ = true by decide)
    (show ends (World.step id) _ (.serving {0}) _ = true by decide)
  obtain ⟨stored, refused, known⟩ := of_decide_eq_true holds
  obtain ⟨transaction, present, owner⟩ := Option.map_eq_some_iff.1 known
  obtain ⟨uncommitted, provenance⟩ :=
    not_installed_of_reach reached 2 transaction present refused
  rw [owner] at uncommitted
  exact ⟨world, stored, refused, uncommitted, provenance 0 4 "a" stored⟩

/-- One key is accepted and another refused, and `commit` installs the first. -/
theorem exists_committed_of_refused :
    ∃ world, Reach (World.step id) (fun _ _ => True) (.serving {0}) world ∧ world.Refused 0 ∧
      (0, Request.p2c 0 true) ∈ world.handled ∧ world.server.get 0 1 = some "a" := by
  obtain ⟨world, reached, holds⟩ := exists_reach_of_ends (fun _ _ => True)
    [.start 0 0 1, .write 0 0 "a", .write 0 1 "b", .finish 0 true, .phaseOne 0 false,
      .phaseOne 0 false, .phaseTwo 0]
    (fun world => world.Refused 0 ∧ (0, Request.p2c 0 true) ∈ world.handled ∧
      world.server.get 0 1 = some "a")
    (fun _ _ _ => trivial)
    (show ends (World.step id) _ (.serving {0}) _ = true by decide)
  exact ⟨world, reached, of_decide_eq_true holds⟩

end Mvtx.Cluster
