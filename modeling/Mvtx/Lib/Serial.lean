import Mathlib.Data.List.Induction
import Mathlib.Logic.Function.Basic

/-!
# Serial execution

A program reads and writes the keys of a store.  What it has done so far, with
the values that its reads have returned, is its log.  A log is legal for some
contents of the store if the program, run by itself on these contents, returns
the same; programs whose logs are legal one after another have a serial history.
-/

namespace Mvtx.Lib.Serial

/-- What a program asks for. -/
inductive Operation (Key Value : Type*) where
  | read (key : Key)
  | write (key : Key) (value : Value)
  deriving DecidableEq

/-- What a program has done. -/
inductive Entry (Key Value : Type*) where
  | read (key : Key) (value : Value)
  | write (key : Key) (value : Value)
  deriving DecidableEq

variable {Key Value : Type*}

namespace Entry

/-- The operation without its result. -/
def operation : Entry Key Value → Operation Key Value
  | .read key _ => .read key
  | .write key value => .write key value

/-- What a read has returned. -/
def answer : Entry Key Value → Option (Key × Value)
  | .read key value => some (key, value)
  | .write _ _ => none

/-- What a write has written. -/
def written : Entry Key Value → Option (Key × Value)
  | .read _ _ => none
  | .write key value => some (key, value)

end Entry

/-- Where an entry stands in a log that has grown by one. -/
theorem split_of_append {log before after : List (Entry Key Value)} {entry last : Entry Key Value}
    (whole : log ++ [last] = before ++ entry :: after) :
    log = before ∧ last = entry ∨ ∃ rest, log = before ++ entry :: rest := by
  rcases List.eq_nil_or_concat after with rfl | ⟨rest, other, rfl⟩
  · obtain ⟨rfl, same⟩ := List.append_inj' whole rfl
    exact .inl ⟨rfl, List.singleton_inj.1 same⟩
  · rw [List.concat_eq_append, ← List.cons_append, ← List.append_assoc] at whole
    exact .inr ⟨rest, (List.append_inj' whole rfl).1⟩

variable [DecidableEq Key]

/-- Run a program: what its reads return, in order, and the contents that it leaves. -/
def execute : List (Operation Key Value) → (Key → Value) →
    List (Key × Value) × (Key → Value)
  | [], contents => ([], contents)
  | .read key :: program, contents =>
      let (answers, last) := execute program contents
      ((key, contents key) :: answers, last)
  | .write key value :: program, contents =>
      execute program (Function.update contents key value)

/-- Run programs one after another. -/
def executeAll (programs : List (List (Operation Key Value))) (contents : Key → Value) :
    Key → Value :=
  programs.foldl (fun contents program => (execute program contents).2) contents

/-- The contents that a log leaves. -/
def replay : List (Entry Key Value) → (Key → Value) → Key → Value
  | [], contents => contents
  | .read _ _ :: log, contents => replay log contents
  | .write key value :: log, contents => replay log (Function.update contents key value)

/-- The reads of a log have returned what the store holds when they come. -/
def Legal : List (Entry Key Value) → (Key → Value) → Prop
  | [], _ => True
  | .read key value :: log, contents => contents key = value ∧ Legal log contents
  | .write key value :: log, contents => Legal log (Function.update contents key value)

/-- The last value that a log writes for a key. -/
def lastWritten : List (Entry Key Value) → Key → Option Value
  | [], _ => none
  | .read _ _ :: log, key => lastWritten log key
  | .write key value :: log, other =>
      (lastWritten log other).or (if other = key then some value else none)

variable {log log' : List (Entry Key Value)} {contents : Key → Value} {key other : Key}
  {value : Value}

theorem lastWritten_append (log log' : List (Entry Key Value)) (key : Key) :
    lastWritten (log ++ log') key = (lastWritten log' key).or (lastWritten log key) := by
  induction log with
  | nil => simp [lastWritten]
  | cons entry log ih =>
      cases entry with
      | read => exact ih
      | write => simp [lastWritten, ih, Option.or_assoc]

@[simp]
theorem lastWritten_append_read (log : List (Entry Key Value)) (key : Key) (value : Value) :
    lastWritten (log ++ [.read key value]) = lastWritten log := by
  funext other
  simp [lastWritten_append, lastWritten]

@[simp]
theorem lastWritten_append_write (log : List (Entry Key Value)) (key : Key) (value : Value) :
    lastWritten (log ++ [.write key value]) =
      Function.update (lastWritten log) key (some value) := by
  funext other
  by_cases same : other = key <;> simp [lastWritten_append, lastWritten, same]

theorem replay_append (log log' : List (Entry Key Value)) (contents : Key → Value) :
    replay (log ++ log') contents = replay log' (replay log contents) := by
  induction log generalizing contents with
  | nil => rfl
  | cons entry log ih => cases entry <;> exact ih _

/-- A log leaves what it has written last, and the rest as it was. -/
theorem replay_apply (log : List (Entry Key Value)) (contents : Key → Value) (key : Key) :
    replay log contents key = (lastWritten log key).getD (contents key) := by
  induction log generalizing contents with
  | nil => rfl
  | cons entry log ih =>
      cases entry with
      | read => exact ih contents
      | write other value =>
          rw [replay, ih, lastWritten]
          cases lastWritten log key <;> by_cases same : key = other <;> simp [same]

theorem legal_append (log log' : List (Entry Key Value)) (contents : Key → Value) :
    Legal (log ++ log') contents ↔ Legal log contents ∧ Legal log' (replay log contents) := by
  induction log generalizing contents with
  | nil => simp [Legal, replay]
  | cons entry log ih => cases entry <;> simp [Legal, replay, ih, and_assoc]

/-- A log is legal if every read returns its own last write or else what was there. -/
theorem legal_of_reads
    (reads : ∀ before key value after, log = before ++ .read key value :: after →
      (lastWritten before key).getD (contents key) = value) : Legal log contents := by
  induction log using List.reverseRecOn with
  | nil => trivial
  | append_singleton log entry ih =>
      rw [legal_append]
      refine ⟨ih fun before key value after whole =>
        reads before key value (after ++ [entry]) (by simp [whole]), ?_⟩
      cases entry with
      | read key value =>
          refine ⟨?_, trivial⟩
          rw [replay_apply]
          exact reads log key value [] rfl
      | write key value => trivial

/-- A program with a legal log returns what is logged. -/
theorem execute_of_legal (legal : Legal log contents) :
    execute (log.map Entry.operation) contents =
      (log.filterMap Entry.answer, replay log contents) := by
  induction log generalizing contents with
  | nil => rfl
  | cons entry log ih =>
      cases entry with
      | read key value =>
          obtain ⟨rfl, rest⟩ := legal
          simp [execute, Entry.operation, Entry.answer, replay, ih rest]
      | write key value =>
          rw [List.filterMap_cons_none rfl]
          exact ih legal

/-- Programs whose logs are legal one after another leave what their logs leave. -/
theorem executeAll_of_legal {logs : List (List (Entry Key Value))}
    (legal : Legal logs.flatten contents) :
    executeAll (logs.map fun log => log.map Entry.operation) contents =
      replay logs.flatten contents := by
  induction logs generalizing contents with
  | nil => rfl
  | cons log logs ih =>
      rw [List.flatten_cons, legal_append] at legal
      rw [List.flatten_cons, replay_append, ← ih legal.2]
      simp [executeAll, execute_of_legal legal.1]

/-- The last log that writes a key determines what is left of it. -/
theorem replay_flatten_of_last {before after : List (List (Entry Key Value))}
    (writes : lastWritten log key = some value)
    (silent : ∀ later ∈ after, lastWritten later key = none) :
    replay (before ++ log :: after).flatten contents key = value := by
  have rest : lastWritten after.flatten key = none := by
    induction after with
    | nil => rfl
    | cons later after ih =>
        rw [List.flatten_cons, lastWritten_append,
          ih fun other member => silent other (List.mem_cons_of_mem _ member),
          silent later List.mem_cons_self, Option.none_or]
  rw [replay_apply, List.flatten_append, List.flatten_cons, lastWritten_append,
    lastWritten_append, rest, writes]
  rfl

/-- What no log writes is left alone. -/
theorem replay_flatten_of_silent {logs : List (List (Entry Key Value))}
    (silent : ∀ log ∈ logs, lastWritten log key = none) :
    replay logs.flatten contents key = contents key := by
  induction logs generalizing contents with
  | nil => rfl
  | cons log logs ih =>
      rw [List.flatten_cons, replay_append,
        ih fun other member => silent other (List.mem_cons_of_mem _ member), replay_apply,
        silent log List.mem_cons_self]
      rfl

end Mvtx.Lib.Serial
