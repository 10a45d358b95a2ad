import Mathlib.Data.Finset.Card
import Mathlib.Data.Fintype.Basic
import Mvtx.Lib.Run

/-!
# Monitors

Threads call procedures that share a state under one mutex.  A procedure runs
from the acquisition of the mutex to a wait, which releases the mutex and
suspends the thread, or to the end, where the mutex is released; this is one
step here.  A thread that has waited runs the procedure again from its test.

Before the end a procedure may notify one of the threads that are suspended on a
condition.  Suspended threads may also wake up by themselves.

The main rule is `supply_le_notified`: where every change of the state that lets
more threads proceed notifies one, no thread is forgotten.
-/

namespace Mvtx.Lib.Monitor

/-- How a procedure leaves the mutex. -/
inductive Pass (State Condition Result : Type*) where
  | wait (condition : Condition)
  | leave (state : State) (notify : Option Condition) (result : Result)

/-- Where a thread is. -/
inductive ThreadState (Condition Call Result : Type*) where
  /-- Outside of the monitor, with the result of its last call. -/
  | idle (returned : Option Result)
  | entering (call : Call)
  /-- Suspended and not notified. -/
  | suspended (condition : Condition) (call : Call)
  /-- Notified and not yet resumed. -/
  | notified (condition : Condition) (call : Call)
  /-- Woken up without a notification, and not yet resumed. -/
  | awake (call : Call)

namespace ThreadState

variable {Condition Call Result : Type*} [DecidableEq Condition]

/-- The call that a thread runs once it has the mutex. -/
def runnable : ThreadState Condition Call Result → Option Call
  | .entering call | .notified _ call | .awake call => some call
  | _ => none

def IsSuspended (condition : Condition) : ThreadState Condition Call Result → Prop
  | .suspended other _ => other = condition
  | _ => False

def IsNotified (condition : Condition) : ThreadState Condition Call Result → Prop
  | .notified other _ => other = condition
  | _ => False

section

variable {condition other : Condition} {call : Call} {returned : Option Result}

omit [DecidableEq Condition]

@[simp] theorem isNotified_idle :
    ¬ (.idle returned : ThreadState Condition Call Result).IsNotified condition := id

@[simp] theorem isNotified_entering :
    ¬ (.entering call : ThreadState Condition Call Result).IsNotified condition := id

@[simp] theorem isNotified_awake :
    ¬ (.awake call : ThreadState Condition Call Result).IsNotified condition := id

@[simp] theorem isNotified_suspended :
    ¬ (.suspended other call : ThreadState Condition Call Result).IsNotified condition := id

@[simp] theorem isNotified_notified :
    (.notified other call : ThreadState Condition Call Result).IsNotified condition ↔
      other = condition := Iff.rfl

end

omit [DecidableEq Condition] in
theorem eq_notified {condition : Condition} {thread : ThreadState Condition Call Result}
    {call : Call} (runs : thread.runnable = some call) (isNotified : thread.IsNotified condition) :
    thread = .notified condition call := by
  cases thread with
  | notified found other =>
      obtain rfl : found = condition := isNotified
      obtain rfl := Option.some.inj runs
      rfl
  | _ => exact isNotified.elim

instance (condition : Condition) (thread : ThreadState Condition Call Result) :
    Decidable (thread.IsSuspended condition) := by
  cases thread <;> unfold IsSuspended <;> infer_instance

instance (condition : Condition) (thread : ThreadState Condition Call Result) :
    Decidable (thread.IsNotified condition) := by
  cases thread <;> unfold IsNotified <;> infer_instance

end ThreadState

/-- The shared state and the threads. -/
structure Configuration (Thread State Condition Call Result : Type*) where
  state : State
  threads : Thread → ThreadState Condition Call Result

/-- What happens next. -/
inductive Move (Thread Call : Type*) where
  | call (thread : Thread) (call : Call)
  /-- A thread gets the mutex; `chosen` is the thread that it notifies. -/
  | pass (thread : Thread) (chosen : Option Thread)
  | wakeUp (thread : Thread)

variable {Thread State Condition Call Result : Type*} [Fintype Thread] [DecidableEq Thread]
  [DecidableEq Condition]

/--
Notify one of the threads that are suspended on a condition, any one; there is
none to choose only if none is suspended.
-/
def notifyOne (threads : Thread → ThreadState Condition Call Result) (condition : Condition)
    (chosen : Option Thread) : Except Unit (Thread → ThreadState Condition Call Result) :=
  match chosen with
  | some other =>
      match threads other with
      | .suspended found call =>
          if found = condition then
            .ok (Function.update threads other (.notified condition call))
          else .error ()
      | _ => .error ()
  | none => if ∃ other, (threads other).IsSuspended condition then .error () else .ok threads

/-- One step of a monitor; the error stands for a move that is not possible. -/
def step (body : Call → State → Pass State Condition Result)
    (monitor : Configuration Thread State Condition Call Result) :
    Move Thread Call → Except Unit (Configuration Thread State Condition Call Result)
  | .call thread call =>
      match monitor.threads thread with
      | .idle _ =>
          .ok
            { monitor with threads := Function.update monitor.threads thread (.entering call) }
      | _ => .error ()
  | .pass thread chosen =>
      match (monitor.threads thread).runnable with
      | none => .error ()
      | some call =>
          match body call monitor.state with
          | .wait condition =>
              .ok
                { monitor with
                  threads :=
                    Function.update monitor.threads thread (.suspended condition call) }
          | .leave state notify result =>
              let threads := Function.update monitor.threads thread (.idle (some result))
              match notify with
              | none => .ok { state := state, threads := threads }
              | some condition =>
                  match notifyOne threads condition chosen with
                  | .error error => .error error
                  | .ok threads => .ok { state := state, threads := threads }
  | .wakeUp thread =>
      match monitor.threads thread with
      | .suspended _ call =>
          .ok { monitor with threads := Function.update monitor.threads thread (.awake call) }
      | _ => .error ()

/-- The call that a move lets return, with its result: a pass that gets to the end. -/
def returns (body : Call → State → Pass State Condition Result)
    (monitor : Configuration Thread State Condition Call Result) :
    Move Thread Call → List (Call × Result)
  | .pass thread _ =>
      match (monitor.threads thread).runnable with
      | none => []
      | some call =>
          match body call monitor.state with
          | .wait _ => []
          | .leave _ _ result => [(call, result)]
  | _ => []

/-- All threads are outside of the monitor. -/
def initial (state : State) : Configuration Thread State Condition Call Result where
  state := state
  threads := fun _ => .idle none

/-! ## Counting threads -/

/-- The number of threads that have been notified and have not resumed. -/
def notified (threads : Thread → ThreadState Condition Call Result) (condition : Condition) : Nat :=
  (Finset.univ.filter fun thread => (threads thread).IsNotified condition).card

/-- The count of the notified threads, where one thread changes. -/
theorem notified_update (threads : Thread → ThreadState Condition Call Result)
    (condition : Condition) (thread : Thread) (new : ThreadState Condition Call Result) :
    notified (Function.update threads thread new) condition +
        (if (threads thread).IsNotified condition then 1 else 0) =
      notified threads condition + (if new.IsNotified condition then 1 else 0) := by
  have split : ∀ threads : Thread → ThreadState Condition Call Result,
      notified threads condition =
        ((Finset.univ.filter fun other => (threads other).IsNotified condition).erase thread).card +
          if (threads thread).IsNotified condition then 1 else 0 := by
    intro threads
    unfold notified
    by_cases isNotified : (threads thread).IsNotified condition
    · rw [if_pos isNotified, Finset.card_erase_add_one (by simp [isNotified])]
    · rw [if_neg isNotified, Finset.erase_eq_of_notMem (by simp [isNotified]), Nat.add_zero]
  have others :
      (Finset.univ.filter fun other =>
          (Function.update threads thread new other).IsNotified condition).erase thread =
        (Finset.univ.filter fun other => (threads other).IsNotified condition).erase thread := by
    ext other
    simp only [Finset.mem_erase, Finset.mem_filter, Finset.mem_univ, true_and]
    refine and_congr_right fun differs => ?_
    rw [Function.update_of_ne differs]
  rw [split (Function.update threads thread new), split threads, others, Function.update_self]
  omega

theorem notified_update_of_not {threads : Thread → ThreadState Condition Call Result}
    {condition : Condition} {thread : Thread} {new : ThreadState Condition Call Result}
    (before : ¬ (threads thread).IsNotified condition) (after : ¬ new.IsNotified condition) :
    notified (Function.update threads thread new) condition = notified threads condition := by
  simpa [before, after] using notified_update threads condition thread new

/-! ## Rules -/

section Rules

variable {body : Call → State → Pass State Condition Result} {first : State}
  {monitor monitor' : Configuration Thread State Condition Call Result} {move : Move Thread Call}
  {threads threads' : Thread → ThreadState Condition Call Result} {notify : Option Condition}
  {condition : Condition}

/-- The threads after a notification, if there is one. -/
def Notifies (threads : Thread → ThreadState Condition Call Result) (notify : Option Condition)
    (threads' : Thread → ThreadState Condition Call Result) : Prop :=
  threads' = threads ∧ (∀ condition, notify = some condition →
    ∀ other, ¬ (threads other).IsSuspended condition) ∨
  ∃ condition other call, notify = some condition ∧ threads other = .suspended condition call ∧
    threads' = Function.update threads other (.notified condition call)

theorem notifies_of_notifyOne {chosen : Option Thread}
    (returned : notifyOne threads condition chosen = .ok threads') :
    Notifies threads (some condition) threads' := by
  unfold notifyOne at returned
  cases chosen with
  | none =>
      simp only at returned
      split_ifs at returned with suspended
      obtain rfl := Except.ok.inj returned
      refine .inl ⟨rfl, ?_⟩
      intro condition' same other isSuspended
      obtain rfl := Option.some.inj same
      exact suspended ⟨other, isSuspended⟩
  | some other =>
      cases found : threads other <;> simp only [found] at returned <;> try contradiction
      next condition' call =>
        split_ifs at returned with same
        subst same
        exact .inr ⟨condition', other, call, rfl, found, (Except.ok.inj returned).symm⟩

/-- The four things that a step can do. -/
theorem step_cases (stepped : step body monitor move = .ok monitor') :
    (∃ thread returned call, monitor.threads thread = .idle returned ∧
      monitor' =
        { monitor with threads := Function.update monitor.threads thread (.entering call) }) ∨
    (∃ thread condition call, monitor.threads thread = .suspended condition call ∧
      monitor' =
        { monitor with threads := Function.update monitor.threads thread (.awake call) }) ∨
    (∃ thread call condition, (monitor.threads thread).runnable = some call ∧
      body call monitor.state = .wait condition ∧
      monitor' =
        { monitor with
          threads := Function.update monitor.threads thread (.suspended condition call) }) ∨
    ∃ thread call state notify result threads, (monitor.threads thread).runnable = some call ∧
      body call monitor.state = .leave state notify result ∧
      Notifies (Function.update monitor.threads thread (.idle (some result))) notify threads ∧
      monitor' = ⟨state, threads⟩ := by
  cases move with
  | call thread call =>
      cases found : monitor.threads thread <;> simp only [step, found] at stepped <;>
        try contradiction
      next returned => exact .inl ⟨thread, returned, call, found, (Except.ok.inj stepped).symm⟩
  | wakeUp thread =>
      cases found : monitor.threads thread <;> simp only [step, found] at stepped <;>
        try contradiction
      next condition call =>
        exact .inr (.inl ⟨thread, condition, call, found, (Except.ok.inj stepped).symm⟩)
  | pass thread chosen =>
      cases found : (monitor.threads thread).runnable with
      | none => simp [step, found] at stepped
      | some call =>
          cases passed : body call monitor.state with
          | wait condition =>
              simp only [step, found, passed, Except.ok.injEq] at stepped
              exact .inr (.inr (.inl ⟨thread, call, condition, found, passed, stepped.symm⟩))
          | leave state notify result =>
              refine .inr (.inr (.inr ⟨thread, call, state, notify, result, ?_⟩))
              cases notify with
              | none =>
                  simp only [step, found, passed, Except.ok.injEq] at stepped
                  exact ⟨_, found, passed, .inl ⟨rfl, by simp⟩, stepped.symm⟩
              | some condition =>
                  simp only [step, found, passed] at stepped
                  split at stepped
                  · contradiction
                  · next threads returned =>
                      exact ⟨threads, found, passed, notifies_of_notifyOne returned,
                        (Except.ok.inj stepped).symm⟩

/-- What holds of the state, as a procedure finds and leaves it, holds always. -/
theorem state_invariant (Invariant : State → Prop) (initially : Invariant first)
    (preserved : ∀ call state state' notify result, Invariant state →
      body call state = .leave state' notify result → Invariant state')
    (reached : Reach (step body) (fun _ _ => True) (initial first) monitor) :
    Invariant monitor.state := by
  induction reached with
  | refl => exact initially
  | tail earlier _ stepped ih =>
      rcases step_cases stepped with ⟨_, _, _, -, rfl⟩ | ⟨_, _, _, -, rfl⟩ | ⟨_, _, _, -, -, rfl⟩ |
        ⟨_, call, state, notify, result, _, -, passed, -, rfl⟩
      · exact ih
      · exact ih
      · exact ih
      · exact preserved call _ state notify result ih passed

/-- What a step does to the state, and what it lets return. -/
theorem state_cases (stepped : step body monitor move = .ok monitor') :
    monitor'.state = monitor.state ∧ returns body monitor move = [] ∨
      ∃ call notify result, body call monitor.state = .leave monitor'.state notify result ∧
        returns body monitor move = [(call, result)] := by
  cases move with
  | call thread call =>
      cases found : monitor.threads thread <;> simp only [step, found] at stepped <;>
        try contradiction
      obtain rfl := Except.ok.inj stepped
      exact .inl ⟨rfl, rfl⟩
  | wakeUp thread =>
      cases found : monitor.threads thread <;> simp only [step, found] at stepped <;>
        try contradiction
      obtain rfl := Except.ok.inj stepped
      exact .inl ⟨rfl, rfl⟩
  | pass thread chosen =>
      cases found : (monitor.threads thread).runnable with
      | none => simp [step, found] at stepped
      | some call =>
          cases passed : body call monitor.state with
          | wait condition =>
              simp only [step, found, passed, Except.ok.injEq] at stepped
              subst stepped
              exact .inl ⟨rfl, by simp only [returns, found, passed]⟩
          | leave state notify result =>
              refine .inr ⟨call, notify, result, ?_, by simp only [returns, found, passed]⟩
              have same : state = monitor'.state := by
                cases notify with
                | none =>
                    simp only [step, found, passed, Except.ok.injEq] at stepped
                    exact congrArg Configuration.state stepped
                | some condition =>
                    simp only [step, found, passed] at stepped
                    split at stepped
                    · contradiction
                    · exact congrArg Configuration.state (Except.ok.inj stepped)
              rw [passed, same]

/--
What holds of the state and of the calls that have returned so far, as they have
left the mutex one after another, holds always.
-/
theorem returns_invariant (Invariant : State → List (Call × Result) → Prop)
    (initially : Invariant first [])
    (preserved : ∀ call state state' notify result returned, Invariant state returned →
      body call state = .leave state' notify result →
      Invariant state' (returned ++ [(call, result)]))
    {moves : List (Move Thread Call)}
    (trace : Trace (step body) (fun _ _ => True) (initial first) moves monitor) :
    Invariant monitor.state (outputs (step body) (returns body) (initial first) moves) := by
  refine Trace.outputs_invariant (fun monitor returned => Invariant monitor.state returned)
    initially ?_ trace
  intro monitor returned move monitor' holds _ stepped
  rcases state_cases stepped with ⟨state, none'⟩ | ⟨call, notify, result, passed, returns'⟩
  · rw [none', List.append_nil, state]
    exact holds
  · rw [returns']
    exact preserved call monitor.state monitor'.state notify result returned holds passed

/-- Every waiting thread runs a call that waits on its condition. -/
def Waits (body : Call → State → Pass State Condition Result)
    (threads : Thread → ThreadState Condition Call Result) : Prop :=
  ∀ thread condition call,
    threads thread = .suspended condition call ∨ threads thread = .notified condition call →
      ∃ state, body call state = .wait condition

omit [Fintype Thread] [DecidableEq Condition] in
theorem Waits.update (waits : Waits body threads) (thread : Thread)
    {new : ThreadState Condition Call Result}
    (fits : ∀ condition call, new = .suspended condition call ∨ new = .notified condition call →
      ∃ state, body call state = .wait condition) :
    Waits body (Function.update threads thread new) := by
  intro other condition call found
  by_cases same : other = thread
  · subst same
    rw [Function.update_self] at found
    exact fits condition call found
  · rw [Function.update_of_ne same] at found
    exact waits other condition call found

omit [Fintype Thread] [DecidableEq Condition] in
theorem Waits.notifies (waits : Waits body threads) (notifies : Notifies threads notify threads') :
    Waits body threads' := by
  rcases notifies with ⟨rfl, -⟩ | ⟨condition, other, call, rfl, found, rfl⟩
  · exact waits
  · refine waits.update other ?_
    rintro condition' call' (isNew | isNew)
    · cases isNew
    · obtain ⟨rfl, rfl⟩ := ThreadState.notified.inj isNew
      exact waits other _ _ (.inl found)

theorem waits_of_reach (reached : Reach (step body) (fun _ _ => True) (initial first) monitor) :
    Waits body monitor.threads := by
  induction reached with
  | refl => rintro thread condition call (isIdle | isIdle) <;> cases isIdle
  | tail earlier _ stepped waits =>
      rcases step_cases stepped with ⟨thread, _, _, -, rfl⟩ | ⟨thread, _, _, -, rfl⟩ |
        ⟨thread, call, condition, -, passed, rfl⟩ | ⟨thread, _, _, _, _, _, -, -, notifies, rfl⟩
      · exact waits.update thread (by simp)
      · exact waits.update thread (by simp)
      · refine waits.update thread ?_
        rintro condition' call' (isNew | isNew)
        · obtain ⟨rfl, rfl⟩ := ThreadState.suspended.inj isNew
          exact ⟨_, passed⟩
        · cases isNew
      · exact (waits.update thread (by simp)).notifies notifies

/--
If a thread is suspended on a condition, the threads that have been notified of
it use up what there is for its waiters.
-/
def NotLost (supply : Condition → State → Nat)
    (monitor : Configuration Thread State Condition Call Result) : Prop :=
  ∀ condition, (∃ thread, (monitor.threads thread).IsSuspended condition) →
    supply condition monitor.state ≤ notified monitor.threads condition

omit [Fintype Thread] [DecidableEq Condition] in
/-- A thread that changes and is not suspended on a condition leaves the others suspended. -/
theorem exists_suspended_of_update {thread : Thread} {new : ThreadState Condition Call Result}
    (differs : ¬ new.IsSuspended condition)
    (suspended : ∃ other, (Function.update threads thread new other).IsSuspended condition) :
    ∃ other, (threads other).IsSuspended condition := by
  obtain ⟨other, isSuspended⟩ := suspended
  by_cases same : other = thread
  · subst same
    rw [Function.update_self] at isSuspended
    exact absurd isSuspended differs
  · rw [Function.update_of_ne same] at isSuspended
    exact ⟨other, isSuspended⟩

/-- A notification adds to the notified threads, unless none is suspended. -/
theorem notified_of_notifies (notifies : Notifies threads notify threads')
    (suspended : ∃ other, (threads' other).IsSuspended condition) :
    (∃ other, (threads other).IsSuspended condition) ∧
      notified threads' condition =
        notified threads condition + if notify = some condition then 1 else 0 := by
  rcases notifies with ⟨rfl, none'⟩ | ⟨condition', other, call, rfl, found, rfl⟩
  · obtain ⟨other, isSuspended⟩ := suspended
    refine ⟨⟨other, isSuspended⟩, ?_⟩
    rw [if_neg fun same => none' condition same other isSuspended, Nat.add_zero]
  · refine ⟨exists_suspended_of_update id suspended, ?_⟩
    have count := notified_update threads condition other (.notified condition' call)
    rw [found] at count
    simpa using count

/--
No notification is lost, where a procedure waits only if there is nothing for it
(`waits`), what it adds is no more than it notifies of (`notifies`), and what it
waits for it takes away (`takes`), in all states with an invariant.
-/
theorem notLost_of_reach {supply : Condition → State → Nat} (Invariant : State → Prop)
    (initially : Invariant first)
    (preserved : ∀ call state state' notify result, Invariant state →
      body call state = .leave state' notify result → Invariant state')
    (one : ∀ call state state' condition condition',
      body call state = .wait condition → body call state' = .wait condition' →
        condition = condition')
    (waits : ∀ call state condition, body call state = .wait condition →
      supply condition state = 0)
    (notifies : ∀ call state state' notify result condition, Invariant state →
      body call state = .leave state' notify result →
        supply condition state' ≤
          supply condition state + if notify = some condition then 1 else 0)
    (takes : ∀ call state state' notify result condition earlier, Invariant state →
      body call earlier = .wait condition → body call state = .leave state' notify result →
        supply condition state' + 1 ≤ supply condition state)
    (reached : Reach (step body) (fun _ _ => True) (initial first) monitor) :
    NotLost supply monitor := by
  induction reached with
  | refl =>
      rintro condition ⟨thread, isSuspended⟩
      exact isSuspended.elim
  | @tail monitor _ _ earlier _ stepped ih =>
      have fits := waits_of_reach earlier
      have holds := state_invariant Invariant initially preserved earlier
      intro condition
      rcases step_cases stepped with ⟨thread, returned, call, found, rfl⟩ |
        ⟨thread, condition', call, found, rfl⟩ |
        ⟨thread, call, condition', found, passed, rfl⟩ |
        ⟨thread, call, state, notify, result, threads, found, passed, chosen, rfl⟩
      · intro suspended
        show supply condition monitor.state ≤ notified (Function.update _ _ _) condition
        rw [notified_update_of_not (by simp [found]) (by simp)]
        exact ih condition (exists_suspended_of_update id suspended)
      · intro suspended
        show supply condition monitor.state ≤ notified (Function.update _ _ _) condition
        rw [notified_update_of_not (by simp [found]) (by simp)]
        exact ih condition (exists_suspended_of_update id suspended)
      · intro suspended
        by_cases same : condition' = condition
        · subst same
          rw [waits call monitor.state condition' passed]
          exact Nat.zero_le _
        · -- A thread that waits for something else has not been notified of this.
          have unnotified : ¬ (monitor.threads thread).IsNotified condition := by
            intro isNotified
            obtain ⟨state, waited⟩ :=
              fits thread condition call (.inr (ThreadState.eq_notified found isNotified))
            exact same (one call _ _ _ _ passed waited)
          show supply condition monitor.state ≤ notified (Function.update _ _ _) condition
          rw [notified_update_of_not unnotified (by simp)]
          exact ih condition (exists_suspended_of_update
            (show ¬ (ThreadState.suspended condition' call).IsSuspended condition from same)
            suspended)
      · intro suspended
        obtain ⟨others, count'⟩ := notified_of_notifies chosen suspended
        have count := notified_update monitor.threads condition thread (.idle (some result))
        have before := ih condition (exists_suspended_of_update id others)
        have added := notifies call monitor.state state notify result condition holds passed
        simp only [ThreadState.isNotified_idle, if_false, Nat.add_zero] at count
        show supply condition state ≤ notified threads condition
        by_cases isNotified : (monitor.threads thread).IsNotified condition
        · obtain ⟨earlier', waited⟩ :=
            fits thread condition call (.inr (ThreadState.eq_notified found isNotified))
          have taken :=
            takes call monitor.state state notify result condition earlier' holds waited passed
          rw [if_pos isNotified] at count
          omega
        · rw [if_neg isNotified] at count
          omega

end Rules

end Mvtx.Lib.Monitor
