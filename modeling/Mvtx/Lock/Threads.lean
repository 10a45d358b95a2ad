import Mvtx.Lib.Ascending
import Mvtx.Lib.Run
import Mvtx.Lib.WaitFor

/-!
# The locks inside the lock manager

Any number of threads call the lock manager.  An operation is the sequence of
its acquisitions and releases of `_key_map_lock`, of `_transaction_map_lock` and
of the mutexes of keys and transactions, with what it looks up and changes in the
two maps under these locks; a step is one command of one thread.

`tryBackwardLock` and `tryLock` take the mutex of a key before
`_transaction_map_lock`, and `freeze` and `unlock` take them in the other order.
That is harmless as long as all of them only read the map of the transactions,
but the first lock of a transaction is entered into it.
-/

namespace Mvtx.Lock.Threads

open Lib Lib.WaitFor

/-- The locks inside the lock manager. -/
inductive Latch where
  /-- `_key_map_lock`. -/
  | keyMap
  /-- `_transaction_map_lock`. -/
  | transactionMap
  /-- The mutex of a key. -/
  | key (key : Nat)
  /-- The mutex of a transaction. -/
  | transaction (tid : Nat)
  deriving DecidableEq

/-- What an operation does next. -/
inductive Command where
  | acquire (latch : Latch) (mode : Mode)
  | release (latch : Latch)
  /-- Go on if there is an entry for a key, and make one before that otherwise. -/
  | findKey (key : Nat)
  | insertKey (key : Nat)
  /-- Go on if there is an entry for a transaction, and make one before that otherwise. -/
  | findTransaction (tid : Nat)
  | insertTransaction (tid : Nat)
  | addInterval (tid key : Nat)
  /-- Go on if there is an entry for a transaction, and return otherwise. -/
  | requireTransaction (tid : Nat)
  /-- Visit the keys of a transaction one after another. -/
  | eachKey (tid : Nat)
  /-- Visit the intervals of a key if there is an entry for it. -/
  | visitKey (key : Nat)
  | clearIntervals (tid : Nat)
  | eraseTransaction (tid : Nat)
  deriving DecidableEq

open Command

/-- `createKeyInfo`. -/
def createKeyInfo (key : Nat) : List Command :=
  [acquire .keyMap .exclusive, insertKey key, release .keyMap]

/-- `createTransactionInfo`. -/
def createTransactionInfo (tid : Nat) : List Command :=
  [acquire .transactionMap .exclusive, insertTransaction tid, release .transactionMap]

/-- `deleteTransactionInfo`. -/
def deleteTransactionInfo (tid : Nat) : List Command :=
  [acquire .transactionMap .exclusive, eraseTransaction tid, release .transactionMap]

/-- `addTransactionLock`. -/
def addTransactionLock (tid key : Nat) : List Command :=
  [acquire .transactionMap .shared, findTransaction tid,
    acquire (.transaction tid) .exclusive, addInterval tid key, release (.transaction tid),
    release .transactionMap]

/-- What `tryBackwardLock` and `tryLock` have in common; not all of their ends add a lock. -/
def lockCommands (key tid : Nat) (adds : Bool) : List Command :=
  [acquire .keyMap .shared, findKey key, acquire (.key key) .exclusive] ++
    (if adds then addTransactionLock tid key else []) ++ [release (.key key), release .keyMap]

/-- What `freeze` and `unlock` have in common. -/
def releaseCommands (tid : Nat) : List Command :=
  [acquire .transactionMap .shared, requireTransaction tid,
    acquire (.transaction tid) .exclusive, eachKey tid, clearIntervals tid,
    release (.transaction tid), release .transactionMap] ++ deleteTransactionInfo tid

/-- The body of the loops of `freeze` and `unlock`. -/
def visitCommands (key : Nat) : List Command :=
  [acquire .keyMap .shared, visitKey key, release .keyMap]

/-- A call of the lock manager. -/
inductive Operation where
  | tryBackwardLock (key tid : Nat) (adds : Bool)
  | tryLock (key tid : Nat) (adds : Bool)
  | freeze (tid : Nat)
  | unlock (tid : Nat)
  deriving DecidableEq

namespace Operation

def tid : Operation → Nat
  | .tryBackwardLock _ tid _ | .tryLock _ tid _ | .freeze tid | .unlock tid => tid

def commands : Operation → List Command
  | .tryBackwardLock key tid adds | .tryLock key tid adds => lockCommands key tid adds
  | .freeze tid | .unlock tid => releaseCommands tid

end Operation

/-- A thread in an operation for a transaction; it has returned if nothing is left to do. -/
structure ThreadState where
  tid : Nat
  held : List (Latch × Mode)
  rest : List Command
  deriving DecidableEq

namespace ThreadState

/-- A thread that has not called anything. -/
def idle : ThreadState where
  tid := 0
  held := []
  rest := []

/-- What a thread holds and what it asks for. -/
def standing (thread : ThreadState) : Standing Latch where
  held := thread.held
  wanted :=
    match thread.rest with
    | .acquire latch mode :: _ => some (latch, mode)
    | _ => none

end ThreadState

/-- The two maps and the threads. -/
structure Machine (Thread : Type*) where
  /-- The keys of `_key_map`. -/
  keys : Finset Nat
  /-- The keys of the intervals of the entries of `_transaction_map`. -/
  transactions : Nat → Option (Finset Nat)
  threads : Thread → ThreadState

/-- A thread makes a call, or takes the next step of it. -/
inductive Turn (Thread : Type*) where
  | call (thread : Thread) (operation : Operation)
  | go (thread : Thread)

namespace Machine

variable {Thread : Type*} [DecidableEq Thread]

/-- Nothing has happened. -/
def initial : Machine Thread where
  keys := ∅
  transactions := fun _ => none
  threads := fun _ => .idle

/-- Whom a thread waits for. -/
def standing (machine : Machine Thread) (thread : Thread) : Standing Latch :=
  (machine.threads thread).standing

/-- The keys that a transaction has recorded. -/
def record (machine : Machine Thread) (tid : Nat) : Finset Nat :=
  (machine.transactions tid).getD ∅

/-- Set the state of a thread. -/
def setThread (machine : Machine Thread) (thread : Thread) (state : ThreadState) :
    Machine Thread :=
  { machine with threads := Function.update machine.threads thread state }

/-- Carry out a command of a thread that has not to be waited for. -/
def exec (machine : Machine Thread) (thread : Thread) (state : ThreadState) :
    Command → Machine Thread
  | .acquire latch mode =>
      machine.setThread thread { state with held := (latch, mode) :: state.held }
  | .release latch =>
      machine.setThread thread
        { state with held := state.held.filter fun pair => pair.1 ≠ latch }
  | .findKey key =>
      if key ∈ machine.keys then machine.setThread thread state
      else
        machine.setThread thread
          { state with
            rest := .release .keyMap :: createKeyInfo key ++
              .acquire .keyMap .shared :: state.rest }
  | .insertKey key => { machine with keys := insert key machine.keys }.setThread thread state
  | .findTransaction tid =>
      if (machine.transactions tid).isSome then machine.setThread thread state
      else
        machine.setThread thread
          { state with
            rest := .release .transactionMap :: createTransactionInfo tid ++
              .acquire .transactionMap .shared :: state.rest }
  | .insertTransaction tid =>
      { machine with
        transactions := Function.update machine.transactions tid (some (machine.record tid)) }
        |>.setThread thread state
  | .addInterval tid key =>
      { machine with
        transactions :=
          Function.update machine.transactions tid (some (insert key (machine.record tid))) }
        |>.setThread thread state
  | .requireTransaction tid =>
      if (machine.transactions tid).isSome then machine.setThread thread state
      else machine.setThread thread { state with rest := [.release .transactionMap] }
  | .eachKey tid =>
      machine.setThread thread
        { state with rest := (ascending (machine.record tid)).flatMap visitCommands ++ state.rest }
  | .visitKey key =>
      if key ∈ machine.keys then
        machine.setThread thread
          { state with
            rest := .acquire (.key key) .exclusive :: .release (.key key) :: state.rest }
      else machine.setThread thread state
  | .clearIntervals tid =>
      { machine with
        transactions := Function.update machine.transactions tid
          ((machine.transactions tid).map fun _ => ∅) }
        |>.setThread thread state
  | .eraseTransaction tid =>
      { machine with transactions := Function.update machine.transactions tid none }
        |>.setThread thread state

/-- A thread takes a step; the error stands for a step that is not possible. -/
def step [Fintype Thread] (machine : Machine Thread) : Turn Thread → Except Unit (Machine Thread)
  | .call thread operation =>
      if (machine.threads thread).rest = [] then
        .ok (machine.setThread thread
          { tid := operation.tid, held := [], rest := operation.commands })
      else .error ()
  | .go thread =>
      match (machine.threads thread).rest with
      | [] => .error ()
      | command :: rest =>
          let state := { machine.threads thread with rest := rest }
          match command with
          | .acquire latch mode =>
              if Available machine.standing latch mode then
                .ok (machine.exec thread state command)
              else .error ()
          | _ => .ok (machine.exec thread state command)

end Machine

/-! ## The order of the locks -/

/-- What a thread may hold when it asks for a lock, in an operation for a transaction. -/
inductive Permitted (tid : Nat) : List (Latch × Mode) → Latch → Mode → Prop where
  | findKey : Permitted tid [] .keyMap .shared
  | createKey : Permitted tid [] .keyMap .exclusive
  | lockKey (key : Nat) : Permitted tid [(.keyMap, .shared)] (.key key) .exclusive
  | findTransaction (key : Nat) :
      Permitted tid [(.key key, .exclusive), (.keyMap, .shared)] .transactionMap .shared
  | createTransaction (key : Nat) :
      Permitted tid [(.key key, .exclusive), (.keyMap, .shared)] .transactionMap .exclusive
  | addInterval (key : Nat) :
      Permitted tid [(.transactionMap, .shared), (.key key, .exclusive), (.keyMap, .shared)]
        (.transaction tid) .exclusive
  | findRecord : Permitted tid [] .transactionMap .shared
  | lockRecord : Permitted tid [(.transactionMap, .shared)] (.transaction tid) .exclusive
  | findHeld :
      Permitted tid [(.transaction tid, .exclusive), (.transactionMap, .shared)] .keyMap .shared
  | lockHeld (key : Nat) :
      Permitted tid
        [(.keyMap, .shared), (.transaction tid, .exclusive), (.transactionMap, .shared)]
        (.key key) .exclusive
  | deleteRecord : Permitted tid [] .transactionMap .exclusive

/-- No transaction is entered into the map by some commands. -/
def NoInsert (rest : List Command) : Prop :=
  ∀ tid, insertTransaction tid ∉ rest

/-- No mutex of a key is taken by some commands. -/
def NoKey (rest : List Command) : Prop :=
  ∀ key, acquire (.key key) .exclusive ∉ rest ∧ visitKey key ∉ rest

/-- What holds when a lock is asked for, with the commands after that. -/
structure Proper (tid : Nat) (held : List (Latch × Mode)) (latch : Latch) (mode : Mode)
    (rest : List Command) : Prop where
  permitted : Permitted tid held latch mode
  locksKey : (∃ key, latch = .key key) → NoInsert rest
  inserts : latch = .transactionMap → mode = .exclusive → held ≠ [] → ¬ NoInsert rest
  reads : latch = .transactionMap → NoKey rest

/-- What is left of an operation keeps to the order of the locks, from what is held on. -/
def Obeys (tid : Nat) : List (Latch × Mode) → List Command → Prop
  | held, [] => held = []
  | held, acquire latch mode :: rest =>
      Proper tid held latch mode rest ∧ Obeys tid ((latch, mode) :: held) rest
  | held, release latch :: rest => Obeys tid (held.filter fun pair => pair.1 ≠ latch) rest
  | held, findKey _ :: rest => held = [(.keyMap, .shared)] ∧ Obeys tid held rest
  | held, findTransaction other :: rest =>
      other = tid ∧ NoKey rest ∧
        (∃ key, held = [(.transactionMap, .shared), (.key key, .exclusive), (.keyMap, .shared)]) ∧
          Obeys tid held rest
  | held, requireTransaction other :: rest =>
      other = tid ∧ held = [(.transactionMap, .shared)] ∧ Obeys tid held rest
  | held, eachKey other :: rest =>
      other = tid ∧ NoInsert rest ∧
        held = [(.transaction tid, .exclusive), (.transactionMap, .shared)] ∧ Obeys tid held rest
  | held, visitKey _ :: rest =>
      NoInsert rest ∧
        held = [(.keyMap, .shared), (.transaction tid, .exclusive), (.transactionMap, .shared)] ∧
          Obeys tid held rest
  | held, addInterval other _ :: rest =>
      other = tid ∧ (∀ visited, eachKey visited ∉ rest) ∧ Obeys tid held rest
  | held, insertKey _ :: rest | held, insertTransaction _ :: rest
  | held, clearIntervals _ :: rest | held, eraseTransaction _ :: rest => Obeys tid held rest

theorem proper_iff {tid : Nat} {held : List (Latch × Mode)} {latch : Latch} {mode : Mode}
    {rest : List Command} :
    Proper tid held latch mode rest ↔
      Permitted tid held latch mode ∧ ((∃ key, latch = .key key) → NoInsert rest) ∧
        (latch = .transactionMap → mode = .exclusive → held ≠ [] → ¬ NoInsert rest) ∧
          (latch = .transactionMap → NoKey rest) :=
  ⟨fun proper => ⟨proper.permitted, proper.locksKey, proper.inserts, proper.reads⟩,
    fun ⟨permitted, locksKey, inserts, reads⟩ => ⟨permitted, locksKey, inserts, reads⟩⟩

theorem obeys_lockCommands (key tid : Nat) (adds : Bool) :
    Obeys tid [] (lockCommands key tid adds) := by
  cases adds with
  | false => simp [lockCommands, Obeys, proper_iff, NoInsert, NoKey, Permitted.findKey, Permitted.lockKey]
  | true =>
      simp [lockCommands, addTransactionLock, Obeys, proper_iff, NoInsert, NoKey, Permitted.findKey,
        Permitted.lockKey, Permitted.findTransaction, Permitted.addInterval]

theorem obeys_releaseCommands (tid : Nat) : Obeys tid [] (releaseCommands tid) := by
  simp [releaseCommands, deleteTransactionInfo, Obeys, proper_iff, NoInsert, NoKey,
    Permitted.findRecord, Permitted.lockRecord, Permitted.deleteRecord]

/-- Every operation keeps to the order of the locks. -/
theorem obeys_commands (operation : Operation) :
    Obeys operation.tid [] operation.commands := by
  cases operation with
  | tryBackwardLock key tid adds | tryLock key tid adds => exact obeys_lockCommands key tid adds
  | freeze tid | unlock tid => exact obeys_releaseCommands tid

/-- An entry for a key is made with no lock held. -/
theorem obeys_createKeyInfo {tid : Nat} {rest : List Command} (key : Nat)
    (obeys : Obeys tid [(.keyMap, .shared)] rest) :
    Obeys tid [(.keyMap, .shared)]
      (release .keyMap :: createKeyInfo key ++ acquire .keyMap .shared :: rest) := by
  simp [createKeyInfo, Obeys, proper_iff, Permitted.createKey, Permitted.findKey, obeys]

/-- An entry for a transaction is made with the mutex of a key held. -/
theorem obeys_createTransactionInfo {tid key : Nat} {rest : List Command} (noKey : NoKey rest)
    (obeys : Obeys tid
      [(.transactionMap, .shared), (.key key, .exclusive), (.keyMap, .shared)] rest) :
    Obeys tid [(.transactionMap, .shared), (.key key, .exclusive), (.keyMap, .shared)]
      (release .transactionMap :: createTransactionInfo tid ++
        acquire .transactionMap .shared :: rest) := by
  have enters : ¬ NoInsert (insertTransaction tid :: release .transactionMap ::
      acquire .transactionMap .shared :: rest) := fun none' => none' tid (List.mem_cons_self ..)
  refine ⟨proper_iff.2 ⟨.createTransaction key, by simp, fun _ _ _ => enters, fun _ => ?_⟩,
    proper_iff.2 ⟨.findTransaction key, by simp, by simp, fun _ => noKey⟩, ?_⟩
  · simpa [NoKey] using noKey
  · simpa using obeys

/-- Visiting keys leaves what is held as it is. -/
theorem obeys_visits {tid : Nat} {rest : List Command} (keys : List Nat)
    (noInsert : NoInsert rest)
    (obeys : Obeys tid [(.transaction tid, .exclusive), (.transactionMap, .shared)] rest) :
    NoInsert (keys.flatMap visitCommands ++ rest) ∧
      Obeys tid [(.transaction tid, .exclusive), (.transactionMap, .shared)]
        (keys.flatMap visitCommands ++ rest) := by
  induction keys with
  | nil => exact ⟨noInsert, obeys⟩
  | cons key keys ih =>
      obtain ⟨noInsert', obeys'⟩ := ih
      refine ⟨?_, ?_⟩
      · simpa [NoInsert, visitCommands] using noInsert'
      · rw [List.flatMap_cons, List.append_assoc]
        refine ⟨proper_iff.2 ⟨.findHeld, by simp⟩, ?_, rfl, ?_⟩
        · simpa [NoInsert] using noInsert'
        · simpa [Obeys] using obeys'

/-! ## Levels -/

/-- The level of a thread that asks for a lock. -/
def level (held : List (Latch × Mode)) : Latch → Mode → Nat
  | .keyMap, .exclusive => 0
  | .transactionMap, .exclusive => if held = [] then 0 else 2
  | .key _, _ => if (.transactionMap, .shared) ∈ held then 3 else 1
  | .keyMap, .shared | .transactionMap, .shared | .transaction _, _ => 4

namespace Permitted

variable {tid : Nat} {held : List (Latch × Mode)} {latch : Latch} {mode mode' : Mode}

/-- Whoever asks for a lock does not hold a map exclusively. -/
theorem shared (permitted : Permitted tid held latch mode) :
    (.keyMap, .exclusive) ∉ held ∧ (.transactionMap, .exclusive) ∉ held := by
  cases permitted <;> simp

theorem level_of_keyMap (permitted : Permitted tid held latch mode)
    (holds : (.keyMap, mode') ∈ held) : 1 ≤ level held latch mode := by
  cases permitted <;> simp [level] at holds ⊢

theorem level_of_transactionMap (permitted : Permitted tid held latch mode)
    (holds : (.transactionMap, mode') ∈ held) : 3 ≤ level held latch mode := by
  cases permitted <;> simp [level] at holds ⊢

/-- Whoever holds the mutex of a key and asks for a lock is about to add an interval. -/
theorem level_of_key {key : Nat} (permitted : Permitted tid held latch mode)
    (holds : (.key key, mode') ∈ held) :
    level held latch mode = 4 ∨
      level held latch mode = 2 ∧ latch = .transactionMap ∧ mode = .exclusive ∧
        (.key key, .exclusive) ∈ held := by
  cases permitted <;> simp [level] at holds ⊢
  exact holds.1

theorem eq_tid {other : Nat} (permitted : Permitted tid held latch mode)
    (holds : (.transaction other, mode') ∈ held) : other = tid := by
  cases permitted <;> simp at holds <;> exact holds.1

theorem eq_exclusive {key : Nat} (permitted : Permitted tid held (.key key) mode) :
    mode = .exclusive := by
  cases permitted <;> rfl

theorem of_transaction {other : Nat} (permitted : Permitted tid held (.transaction other) mode) :
    other = tid ∧ ∀ mode', (.transaction other, mode') ∉ held := by
  cases permitted <;> simp

end Permitted

/-! ## New transactions -/

/-- A thread enters a transaction into the map while it holds the mutex of a key. -/
def ThreadState.Creates (thread : ThreadState) (key : Nat) : Prop :=
  (.key key, .exclusive) ∈ thread.held ∧ ¬ NoInsert thread.rest

/-- A thread that reads the map of the transactions has still to take the mutex of a key. -/
def Machine.Ahead {Thread : Type*} (machine : Machine Thread) (thread : ThreadState)
    (key : Nat) : Prop :=
  (.transactionMap, .shared) ∈ thread.held ∧
    (acquire (.key key) .exclusive ∈ thread.rest ∨ visitKey key ∈ thread.rest ∨
      eachKey thread.tid ∈ thread.rest ∧ key ∈ machine.record thread.tid)

/-- Whether a command enters a transaction into the map. -/
def Command.inserts : Command → Bool
  | insertTransaction _ => true
  | _ => false

theorem noInsert_iff {rest : List Command} :
    NoInsert rest ↔ ∀ command ∈ rest, command.inserts = false := by
  refine ⟨fun none' command member => ?_, fun none' tid member =>
    absurd (none' _ member) (by simp [Command.inserts])⟩
  cases command with
  | insertTransaction tid => exact absurd member (none' tid)
  | _ => rfl

instance (rest : List Command) : Decidable (NoInsert rest) :=
  decidable_of_iff _ noInsert_iff.symm

instance (thread : ThreadState) (key : Nat) : Decidable (thread.Creates key) :=
  inferInstanceAs (Decidable (_ ∧ _))

instance {Thread : Type*} (machine : Machine Thread) (thread : ThreadState) (key : Nat) :
    Decidable (machine.Ahead thread key) :=
  inferInstanceAs (Decidable (_ ∧ (_ ∨ _ ∨ _)))

/-- What holds between the steps of the threads. -/
structure Machine.Sound {Thread : Type*} (machine : Machine Thread) : Prop where
  obeys : ∀ thread, Obeys (machine.threads thread).tid (machine.threads thread).held
    (machine.threads thread).rest
  apart : ∀ thread other, (machine.threads thread).rest ≠ [] →
    (machine.threads other).rest ≠ [] →
    (machine.threads thread).tid = (machine.threads other).tid → thread = other
  clear : ∀ thread other key, other ≠ thread → (machine.threads thread).Creates key →
    ¬ machine.Ahead (machine.threads other) key

namespace Machine

variable {Thread : Type*} {machine machine' : Machine Thread} {thread other : Thread}

/-- A thread that asks for a lock. -/
theorem standing_wanted {latch : Latch} {mode : Mode} :
    (machine.standing thread).wanted = some (latch, mode) ↔
      ∃ rest, (machine.threads thread).rest = acquire latch mode :: rest := by
  simp only [standing, ThreadState.standing]
  cases (machine.threads thread).rest with
  | nil => simp
  | cons command rest => cases command <;> simp

/-- The level of a thread. -/
def levelOf (machine : Machine Thread) (thread : Thread) : Nat :=
  match (machine.threads thread).rest with
  | acquire latch mode :: _ => level (machine.threads thread).held latch mode
  | _ => 0

/-- Whoever waits is on a lower level than those that it waits for, if these wait too. -/
theorem Sound.climbs (sound : machine.Sound)
    (waits : Waits machine.standing thread other)
    (waiting : (machine.standing other).wanted ≠ none) :
    machine.levelOf thread < machine.levelOf other := by
  obtain ⟨⟨latch, mode⟩, wanted, ⟨held, mode'⟩, holds, rfl, excludes⟩ := waits
  obtain ⟨⟨latch', mode''⟩, wanted'⟩ := Option.ne_none_iff_exists'.1 waiting
  obtain ⟨rest, asks⟩ := standing_wanted.1 wanted
  obtain ⟨rest', asks'⟩ := standing_wanted.1 wanted'
  have obeys := sound.obeys thread
  have obeys' := sound.obeys other
  rw [asks] at obeys
  rw [asks'] at obeys'
  have permitted := obeys.1.permitted
  have permitted' := obeys'.1.permitted
  have holds' : (held, mode') ∈ (machine.threads other).held := holds
  simp only [levelOf, asks, asks']
  cases held with
  | keyMap =>
      have above := permitted'.level_of_keyMap holds'
      cases mode with
      | shared =>
          obtain rfl := excludes.exclusive
          exact absurd holds' permitted'.shared.1
      | exclusive => exact above
  | transactionMap =>
      have above := permitted'.level_of_transactionMap holds'
      cases mode with
      | shared =>
          obtain rfl := excludes.exclusive
          exact absurd holds' permitted'.shared.2
      | exclusive =>
          have within : level (machine.threads thread).held .transactionMap .exclusive ≤ 2 := by
            rw [level]
            split <;> omega
          omega
  | key key =>
      rcases permitted'.level_of_key holds' with top | ⟨two, rfl, rfl, holdsKey⟩
      · have within : level (machine.threads thread).held (.key key) mode ≤ 3 := by
          rw [level]
          split <;> omega
        omega
      · -- The holder enters a transaction, so the waiter does not read the map.
        have enters : (machine.threads other).Creates key := by
          refine ⟨holdsKey, fun none' => obeys'.1.inserts rfl rfl (List.ne_nil_of_mem holdsKey) ?_⟩
          exact fun tid member => none' tid (by rw [asks']; exact List.mem_cons_of_mem _ member)
        have behind : (.transactionMap, .shared) ∉ (machine.threads thread).held := by
          intro reads
          refine sound.clear other thread key ?_ enters ⟨reads, .inl ?_⟩
          · rintro rfl
            simp [asks] at asks'
          · rw [asks, permitted.eq_exclusive]
            exact List.mem_cons_self ..
        rw [two, level, if_neg behind]
        omega
  | transaction tid =>
      -- Operations for one transaction do not meet, and none takes the mutex twice.
      obtain ⟨own, free⟩ := permitted.of_transaction
      have same := sound.apart thread other (by simp [asks]) (by simp [asks'])
        (own.symm.trans (permitted'.eq_tid holds'))
      subst same
      exact absurd holds' (free mode')

/-- No threads wait for each other in a circle. -/
theorem Sound.not_deadlocked (sound : machine.Sound) : ¬ Deadlocked machine.standing :=
  not_deadlocked_of_level machine.levelOf fun _ _ => sound.climbs

theorem Sound.initial : (initial : Machine Thread).Sound where
  obeys := fun _ => rfl
  apart := fun _ _ busy => absurd rfl busy
  clear := fun _ _ _ _ creates => absurd creates.1 (by simp [Machine.initial, ThreadState.idle])

/-! ## Steps -/

/-- No operation is called for a transaction while another one for it runs. -/
def Apart (machine : Machine Thread) : Turn Thread → Prop
  | .call _ operation => ∀ other, (machine.threads other).rest ≠ [] →
      (machine.threads other).tid ≠ operation.tid
  | .go _ => True

/-- What is asked of the next command of a thread, with the commands after it. -/
def ClearFor (machine : Machine Thread) (thread : Thread) (rest : List Command) : Command → Prop
  | findTransaction tid => machine.transactions tid = none →
      ∀ key, (.key key, .exclusive) ∈ (machine.threads thread).held →
        ∀ other ≠ thread, ¬ machine.Ahead (machine.threads other) key
  | acquire .transactionMap .shared => eachKey (machine.threads thread).tid ∈ rest →
      ∀ key ∈ machine.record (machine.threads thread).tid,
        ∀ other ≠ thread, ¬ (machine.threads other).Creates key
  | _ => True

/--
No thread goes on to enter a transaction into the map while it holds the mutex of
a key that lies ahead of another one which reads the map, and none begins to read
the map for a transaction with such a key while another thread is about to do so.
-/
def Clear (machine : Machine Thread) : Turn Thread → Prop
  | .call _ _ => True
  | .go thread => ∀ command ∈ (machine.threads thread).rest.head?,
      machine.ClearFor thread (machine.threads thread).rest.tail command

theorem record_update {tid : Nat} {entry : Option (Finset Nat)}
    (changed : machine'.transactions = Function.update machine.transactions tid entry)
    (other : Nat) :
    machine'.record other = if other = tid then entry.getD ∅ else machine.record other := by
  by_cases same : other = tid
  · subst same
    simp [Machine.record, changed]
  · simp [Machine.record, changed, same]

variable [DecidableEq Thread]

/-- A thread takes a step. -/
theorem Sound.change {state : ThreadState} (sound : machine.Sound)
    (threads : machine'.threads = Function.update machine.threads thread state)
    (obeys : Obeys state.tid state.held state.rest)
    (apart : ∀ other ≠ thread, (machine.threads other).rest ≠ [] → state.rest ≠ [] →
      (machine.threads other).tid ≠ state.tid)
    (record : ∀ other ≠ thread, eachKey (machine.threads other).tid ∈ (machine.threads other).rest →
      machine'.record (machine.threads other).tid ⊆ machine.record (machine.threads other).tid)
    (creates : ∀ key, state.Creates key → (machine.threads thread).Creates key ∨
      ∀ other ≠ thread, ¬ machine.Ahead (machine.threads other) key)
    (ahead : ∀ key, machine'.Ahead state key → machine.Ahead (machine.threads thread) key ∨
      ∀ other ≠ thread, ¬ (machine.threads other).Creates key) :
    machine'.Sound := by
  have same : machine'.threads thread = state := by rw [threads, Function.update_self]
  have others : ∀ other ≠ thread, machine'.threads other = machine.threads other :=
    fun other differs => by rw [threads, Function.update_of_ne differs]
  refine
    { obeys := fun other => ?_
      apart := fun first second busy busy' tid => ?_
      clear := fun first second key differs enters lies => ?_ }
  · by_cases differs : other = thread
    · rw [differs, same]
      exact obeys
    · rw [others other differs]
      exact sound.obeys other
  · by_cases isFirst : first = thread <;> by_cases isSecond : second = thread
    · rw [isFirst, isSecond]
    · rw [isFirst, same] at busy tid
      rw [others second isSecond] at busy' tid
      exact absurd tid.symm (apart second isSecond busy' busy)
    · rw [isSecond, same] at busy' tid
      rw [others first isFirst] at busy tid
      exact absurd tid (apart first isFirst busy busy')
    · rw [others first isFirst] at busy tid
      rw [others second isSecond] at busy' tid
      exact sound.apart first second busy busy' tid
  · have still : ∀ other ≠ thread, machine'.Ahead (machine.threads other) key →
        machine.Ahead (machine.threads other) key := by
      rintro other away ⟨reads, takes⟩
      refine ⟨reads, takes.imp_right fun takes => takes.imp_right ?_⟩
      exact fun ⟨visits, recorded⟩ => ⟨visits, record other away visits recorded⟩
    by_cases isFirst : first = thread
    · have isSecond : second ≠ thread := isFirst ▸ differs
      rw [isFirst, same] at enters
      rw [others second isSecond] at lies
      rcases creates key enters with before | none'
      · exact sound.clear thread second key isSecond before (still second isSecond lies)
      · exact none' second isSecond (still second isSecond lies)
    · rw [others first isFirst] at enters
      by_cases isSecond : second = thread
      · rw [isSecond, same] at lies
        rcases ahead key lies with before | none'
        · exact sound.clear first thread key (Ne.symm isFirst) enters before
        · exact none' first isFirst enters
      · rw [others second isSecond] at lies
        exact sound.clear first second key differs enters (still second isSecond lies)

/-- A command of a thread that leaves the maps as they are. -/
theorem Sound.exec_thread {tid : Nat} {held held' : List (Latch × Mode)} {command : Command}
    {rest rest' : List Command} (sound : machine.Sound)
    (known : machine.threads thread = ⟨tid, held, command :: rest⟩)
    (obeys : Obeys tid held' rest')
    (creates : ∀ key, (.key key, .exclusive) ∈ held' → ¬ NoInsert rest' →
      (.key key, .exclusive) ∈ held ∧ ¬ NoInsert rest ∨
        ∀ other ≠ thread, ¬ machine.Ahead (machine.threads other) key)
    (ahead : ∀ key, machine.Ahead ⟨tid, held', rest'⟩ key →
      machine.Ahead ⟨tid, held, command :: rest⟩ key ∨
        ∀ other ≠ thread, ¬ (machine.threads other).Creates key) :
    (machine.setThread thread ⟨tid, held', rest'⟩).Sound := by
  refine sound.change rfl obeys (fun other differs busy _ same => ?_)
    (fun _ _ _ => Finset.Subset.refl _) (fun key enters => ?_) (fun key lies => ?_)
  · exact differs (sound.apart other thread busy (by simp [known]) (by rw [known]; exact same))
  · rcases creates key enters.1 enters.2 with ⟨holds, inserts⟩ | none'
    · refine .inl ⟨by rw [known]; exact holds, fun none' => inserts fun other member => ?_⟩
      exact none' other (by rw [known]; exact List.mem_cons_of_mem _ member)
    · exact .inr none'
  · rw [known]
    exact ahead key lies

/-- A command of a thread that changes the maps for its own transaction at most. -/
theorem Sound.exec_maps {tid : Nat} {held : List (Latch × Mode)} {command : Command}
    {rest : List Command} (sound : machine.Sound)
    (known : machine.threads thread = ⟨tid, held, command :: rest⟩)
    (threads : machine'.threads = Function.update machine.threads thread ⟨tid, held, rest⟩)
    (obeys : Obeys tid held rest)
    (record : ∀ other, other ≠ tid ∨ eachKey tid ∈ rest →
      machine'.record other ⊆ machine.record other) : machine'.Sound := by
  have apart : ∀ other ≠ thread, (machine.threads other).rest ≠ [] →
      (machine.threads other).tid ≠ tid := fun other differs busy same =>
    differs (sound.apart other thread busy (by simp [known]) (by rw [known]; exact same))
  refine sound.change threads obeys (fun other differs busy _ => apart other differs busy)
    (fun other differs visits => record _ (.inl (apart other differs (List.ne_nil_of_mem visits))))
    (fun key enters => ?_) (fun key lies => .inl ?_)
  · refine .inl ⟨by rw [known]; exact enters.1, fun none' => enters.2 fun other member => ?_⟩
    exact none' other (by rw [known]; exact List.mem_cons_of_mem _ member)
  · rw [known]
    refine ⟨lies.1, lies.2.imp (List.mem_cons_of_mem _) fun takes =>
      takes.imp (List.mem_cons_of_mem _) fun ⟨visits, recorded⟩ =>
        ⟨List.mem_cons_of_mem _ visits, record tid (.inr visits) recorded⟩⟩

/-- A command of a thread. -/
theorem Sound.exec {tid : Nat} {held : List (Latch × Mode)} {command : Command}
    {rest : List Command} (sound : machine.Sound)
    (known : machine.threads thread = ⟨tid, held, command :: rest⟩)
    (clear : machine.Clear (.go thread)) :
    (machine.exec thread ⟨tid, held, rest⟩ command).Sound := by
  have obeys : Obeys tid held (command :: rest) := by
    have obeys := sound.obeys thread
    rwa [known] at obeys
  have clear : machine.ClearFor thread rest command := by
    simpa [Clear, known] using clear
  have shrinks : ∀ key, machine.Ahead ⟨tid, held, rest⟩ key →
      machine.Ahead ⟨tid, held, command :: rest⟩ key := fun key ⟨reads, takes⟩ =>
    ⟨reads, takes.imp (List.mem_cons_of_mem _) fun takes =>
      takes.imp (List.mem_cons_of_mem _) (And.imp_left (List.mem_cons_of_mem _))⟩
  cases command with
  | acquire latch mode =>
      obtain ⟨proper, obeys⟩ := obeys
      refine sound.exec_thread known obeys (fun key holds inserts => ?_) (fun key lies => ?_)
      · rcases List.mem_cons.1 holds with same | old
        · obtain ⟨rfl, rfl⟩ := Prod.mk.inj same
          exact absurd (proper.locksKey ⟨key, rfl⟩) inserts
        · exact .inl ⟨old, inserts⟩
      · obtain ⟨reads, takes⟩ := lies
        rcases List.mem_cons.1 reads with same | old
        · obtain ⟨rfl, rfl⟩ := Prod.mk.inj same
          obtain ⟨unlocked, unvisited⟩ := proper.reads rfl key
          obtain ⟨visits, recorded⟩ := (takes.resolve_left unlocked).resolve_left unvisited
          refine .inr (clear ?_ key ?_)
          · rw [known]
            exact visits
          · rw [known]
            exact recorded
        · exact .inl (shrinks key ⟨old, takes⟩)
  | release latch =>
      refine sound.exec_thread known obeys (fun key holds inserts => ?_) (fun key lies => ?_)
      · exact .inl ⟨(List.mem_filter.1 holds).1, inserts⟩
      · exact .inl (shrinks key ⟨(List.mem_filter.1 lies.1).1, lies.2⟩)
  | findKey key =>
      obtain ⟨rfl, obeys⟩ := obeys
      rw [Machine.exec]
      split
      · exact sound.exec_thread known obeys (fun key holds inserts => .inl ⟨holds, inserts⟩)
          (fun key lies => .inl (shrinks key lies))
      · exact sound.exec_thread known (obeys_createKeyInfo key obeys) (by simp)
          (fun key lies => absurd lies.1 (by simp))
  | findTransaction other =>
      obtain ⟨rfl, noKey, ⟨key, rfl⟩, obeys⟩ := obeys
      rw [Machine.exec]
      split
      · exact sound.exec_thread known obeys (fun key holds inserts => .inl ⟨holds, inserts⟩)
          (fun key lies => .inl (shrinks key lies))
      · next missing =>
          refine sound.exec_thread known (obeys_createTransactionInfo noKey obeys)
            (fun key holds _ => .inr ?_) (fun key lies => .inl (shrinks key ⟨lies.1, ?_⟩))
          · exact clear (by simpa using missing) key (by rw [known]; exact holds)
          · simpa [createTransactionInfo] using lies.2
  | requireTransaction other =>
      obtain ⟨rfl, rfl, obeys⟩ := obeys
      rw [Machine.exec]
      split
      · exact sound.exec_thread known obeys (fun key holds inserts => .inl ⟨holds, inserts⟩)
          (fun key lies => .inl (shrinks key lies))
      · exact sound.exec_thread known (by simp [Obeys]) (by simp)
          (fun key lies => absurd lies.2 (by simp))
  | eachKey other =>
      obtain ⟨rfl, noInsert, rfl, obeys⟩ := obeys
      obtain ⟨noInsert', obeys'⟩ := obeys_visits (ascending (machine.record other)) noInsert obeys
      refine sound.exec_thread known obeys' (by simp) (fun key lies => .inl ⟨lies.1, ?_⟩)
      have takes := lies.2
      simp only [List.mem_append, List.mem_flatMap, visitCommands, mem_ascending, List.mem_cons,
        List.not_mem_nil, or_false, reduceCtorEq, acquire.injEq, visitKey.injEq,
        and_false, exists_false, false_or] at takes
      rcases takes with locks | (⟨_, recorded, rfl⟩ | visits) | ⟨visits, recorded⟩
      · exact .inl (List.mem_cons_of_mem _ locks)
      · exact .inr (.inr ⟨List.mem_cons_self .., recorded⟩)
      · exact .inr (.inl (List.mem_cons_of_mem _ visits))
      · exact .inr (.inr ⟨List.mem_cons_of_mem _ visits, recorded⟩)
  | visitKey visited =>
      obtain ⟨noInsert, rfl, obeys⟩ := obeys
      rw [Machine.exec]
      split
      · refine sound.exec_thread known ?_ (by simp) (fun key lies => .inl ⟨lies.1, ?_⟩)
        · refine ⟨proper_iff.2 ⟨.lockHeld visited, fun _ => ?_, by simp, by simp⟩, ?_⟩
          · simpa [NoInsert] using noInsert
          · simpa [Obeys] using obeys
        · have takes := lies.2
          simp only [List.mem_cons, reduceCtorEq, acquire.injEq, false_or, Latch.key.injEq,
            and_true] at takes
          rcases takes with (rfl | locks) | visits | ⟨visits, recorded⟩
          · exact .inr (.inl (List.mem_cons_self ..))
          · exact .inl (List.mem_cons_of_mem _ locks)
          · exact .inr (.inl (List.mem_cons_of_mem _ visits))
          · exact .inr (.inr ⟨List.mem_cons_of_mem _ visits, recorded⟩)
      · exact sound.exec_thread known obeys (fun key holds inserts => .inl ⟨holds, inserts⟩)
          (fun key lies => .inl (shrinks key lies))
  | insertKey key => exact sound.exec_maps known rfl obeys fun _ _ => Finset.Subset.refl _
  | insertTransaction other =>
      refine sound.exec_maps known rfl obeys fun another _ => ?_
      rw [record_update rfl]
      split
      · next same => rw [same, Option.getD_some]
      · exact Finset.Subset.refl _
  | addInterval other key =>
      obtain ⟨rfl, noVisit, obeys⟩ := obeys
      refine sound.exec_maps known rfl obeys fun another differs => ?_
      rw [record_update rfl, if_neg (differs.resolve_right (noVisit other))]
  | clearIntervals other | eraseTransaction other =>
      refine sound.exec_maps known rfl obeys fun another _ => ?_
      rw [record_update rfl]
      split
      · cases machine.transactions other <;> simp
      · exact Finset.Subset.refl _

variable [Fintype Thread] {turn : Turn Thread}

theorem Sound.step (sound : machine.Sound) (apart : machine.Apart turn) (clear : machine.Clear turn)
    (stepped : machine.step turn = .ok machine') : machine'.Sound := by
  cases turn with
  | call thread operation =>
      rw [Machine.step] at stepped
      split at stepped
      · obtain rfl := Except.ok.inj stepped
        refine sound.change rfl (obeys_commands operation)
          (fun other _ busy _ => apart other busy) (fun _ _ _ => Finset.Subset.refl _)
          (fun key enters => absurd enters.1 (by simp)) (fun key lies => absurd lies.1 (by simp))
      · exact absurd stepped (by simp)
  | go thread =>
      obtain ⟨tid, held, left, known⟩ : ∃ tid held left,
          machine.threads thread = ⟨tid, held, left⟩ := ⟨_, _, _, rfl⟩
      cases left with
      | nil => simp [Machine.step, known] at stepped
      | cons command rest =>
          have goes := sound.exec known clear
          have same : machine' = machine.exec thread ⟨tid, held, rest⟩ command := by
            simp only [Machine.step, known] at stepped
            cases command with
            | acquire latch mode =>
                simp only at stepped
                split at stepped
                · exact (Except.ok.inj stepped).symm
                · exact absurd stepped (by simp)
            | _ => exact (Except.ok.inj stepped).symm
          rw [same]
          exact goes

instance (turn : Turn Thread) : Decidable (machine.Apart turn) :=
  match turn with
  | .call _ operation => inferInstanceAs (Decidable (∀ other, (machine.threads other).rest ≠ [] →
      (machine.threads other).tid ≠ operation.tid))
  | .go _ => inferInstanceAs (Decidable True)

/-- The key whose mutex is held. -/
def heldKey : Latch × Mode → Option Nat
  | (.key key, .exclusive) => some key
  | _ => none

theorem heldKey_eq_some {pair : Latch × Mode} {key : Nat} :
    heldKey pair = some key ↔ pair = (.key key, .exclusive) := by
  obtain ⟨latch, mode⟩ := pair
  cases latch <;> cases mode <;> simp [heldKey]

instance (held : List (Latch × Mode)) (holds : Nat → Prop) [DecidablePred holds] :
    Decidable (∀ key, (Latch.key key, Mode.exclusive) ∈ held → holds key) :=
  decidable_of_iff (∀ pair ∈ held, ∀ key ∈ heldKey pair, holds key)
    ⟨fun all key member => all _ member key (heldKey_eq_some.2 rfl),
      fun all _ member key is => all key (heldKey_eq_some.1 is ▸ member)⟩

instance (rest : List Command) (command : Command) :
    Decidable (machine.ClearFor thread rest command) :=
  match command with
  | findTransaction tid => inferInstanceAs (Decidable (machine.transactions tid = none →
      ∀ key, (.key key, .exclusive) ∈ (machine.threads thread).held →
        ∀ other ≠ thread, ¬ machine.Ahead (machine.threads other) key))
  | acquire .transactionMap .shared =>
      inferInstanceAs (Decidable (eachKey (machine.threads thread).tid ∈ rest →
        ∀ key ∈ machine.record (machine.threads thread).tid,
          ∀ other ≠ thread, ¬ (machine.threads other).Creates key))
  | acquire .transactionMap .exclusive | acquire .keyMap _ | acquire (.key _) _
  | acquire (.transaction _) _ | release _ | findKey _ | insertKey _ | insertTransaction _
  | addInterval _ _ | requireTransaction _ | eachKey _ | visitKey _ | clearIntervals _
  | eraseTransaction _ => inferInstanceAs (Decidable True)

instance (turn : Turn Thread) : Decidable (machine.Clear turn) :=
  match turn with
  | .call _ _ => inferInstanceAs (Decidable True)
  | .go thread => inferInstanceAs (Decidable (∀ command ∈ (machine.threads thread).rest.head?,
      machine.ClearFor thread (machine.threads thread).rest.tail command))

end Machine

/--
As long as no two operations for one transaction run at once, and no transaction
is entered into the map by a thread whose key another thread still has to visit,
the threads never wait for each other in a circle.
-/
theorem not_deadlocked_of_reach {Thread : Type*} [Fintype Thread] [DecidableEq Thread]
    {machine : Machine Thread}
    (reached : Reach Machine.step (fun machine turn => machine.Apart turn ∧ machine.Clear turn)
      .initial machine) : ¬ Deadlocked machine.standing := by
  have sound : machine.Sound := reached.invariant .initial
    fun _ _ _ sound permitted stepped => sound.step permitted.1 permitted.2 stepped
  exact sound.not_deadlocked

/-- Some steps of a thread. -/
def goes {Thread : Type*} (thread : Thread) (count : Nat) : List (Turn Thread) :=
  List.replicate count (.go thread)

/-- A thread locks a key for a transaction and commits it while another one locks the key. -/
theorem not_deadlocked_of_two_threads :
    ∃ machine : Machine (Fin 2), (machine.threads 1).held ≠ [] ∧
      ¬ Deadlocked machine.standing := by
  obtain ⟨machine, reached, holds⟩ := exists_reach_of_admits
    (fun (machine : Machine (Fin 2)) turn => machine.Apart turn ∧ machine.Clear turn)
    (.call 0 (.tryLock 7 1 true) :: goes 0 21 ++ .call 0 (.freeze 1) :: goes 0 6 ++
      .call 1 (.tryBackwardLock 7 2 true) :: goes 1 2)
    (fun machine => (machine.threads 1).held ≠ [])
    (show admits Machine.step _ .initial _ = true by decide)
    (show ends Machine.step _ .initial _ = true by decide)
  exact ⟨machine, by simpa using holds, not_deadlocked_of_reach reached⟩

/--
A thread has locked a key for a transaction and commits it while another one
locks the key for a new transaction: the first one reads the map of the
transactions and asks for the mutex of the key, the second one holds the mutex
and asks for the map.
-/
theorem exists_deadlocked_of_apart :
    ∃ machine : Machine (Fin 2),
      Reach Machine.step (fun machine turn => machine.Apart turn) .initial machine ∧
        Deadlocked machine.standing := by
  obtain ⟨machine, reached, holds⟩ := exists_reach_of_admits
    (fun (machine : Machine (Fin 2)) turn => machine.Apart turn)
    (.call 0 (.tryLock 7 1 true) :: goes 0 21 ++ .call 1 (.tryLock 7 2 true) :: goes 1 6 ++
      .call 0 (.freeze 1) :: goes 0 6)
    (fun machine => Waits machine.standing 0 1 ∧ Waits machine.standing 1 0)
    (show admits Machine.step _ .initial _ = true by decide)
    (show ends Machine.step _ .initial _ = true by decide)
  obtain ⟨first, second⟩ := by simpa using holds
  exact ⟨machine, reached, 0, .tail (.single first) second⟩

end Mvtx.Lock.Threads
