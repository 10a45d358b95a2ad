import Mvtx.Lib.Monitor

/-!
# SafeQueue

The queue of events of a server is bounded and shared by its threads.  Its three
procedures are the passes of a monitor, from the lock to a wait or to the end.
-/

namespace Mvtx.Server

open Lib Lib.Monitor

/-- The two condition variables. -/
inductive QueueCondition where
  /-- Used for waiting when the queue is full. -/
  | cond1
  /-- Used for waiting when the queue is empty. -/
  | cond2
  deriving DecidableEq

/-- A call of the queue. -/
inductive QueueCall (α : Type*) where
  | enqueue (t : α)
  | dequeue
  | tryDequeue

/-- What a call returns. -/
inductive QueueResult (α : Type*) where
  | enqueued
  | dequeued (res : α)
  /-- `none` is the result false. -/
  | tried (elem : Option α)

/-- The elements that a call puts into the queue. -/
def QueueCall.handedIn {α : Type*} : QueueCall α → List α
  | .enqueue t => [t]
  | .dequeue | .tryDequeue => []

/-- The elements that a result hands out. -/
def QueueResult.handedOut {α : Type*} : QueueResult α → List α
  | .dequeued res => [res]
  | .tried (some elem) => [elem]
  | .tried none | .enqueued => []

/-- The queue, its front at the head, and the elements that have gone through it. -/
structure SafeQueue (α : Type*) where
  queue : List α
  /-- The elements that have been pushed, in this order. -/
  added : List α
  /-- The elements that have been popped, in this order. -/
  removed : List α

namespace SafeQueue

variable {α : Type*}

def empty : SafeQueue α where
  queue := []
  added := []
  removed := []

def push (queue : SafeQueue α) (t : α) : SafeQueue α :=
  { queue with queue := queue.queue ++ [t], added := queue.added ++ [t] }

/-- Pop the front, which is given along with what is behind it. -/
def pop (queue : SafeQueue α) (front : α) (behind : List α) : SafeQueue α :=
  { queue with queue := behind, removed := queue.removed ++ [front] }

def enqueue (maxSize : Nat) (t : α) (queue : SafeQueue α) :
    Pass (SafeQueue α) QueueCondition (QueueResult α) :=
  if queue.queue.length = maxSize then .wait .cond1
  else .leave (queue.push t) (some .cond2) .enqueued

def dequeue (queue : SafeQueue α) : Pass (SafeQueue α) QueueCondition (QueueResult α) :=
  match queue.queue with
  | [] => .wait .cond2
  | res :: behind => .leave (queue.pop res behind) (some .cond1) (.dequeued res)

def tryDequeue (queue : SafeQueue α) : Pass (SafeQueue α) QueueCondition (QueueResult α) :=
  match queue.queue with
  | [] => .leave queue none (.tried none)
  | elem :: behind => .leave (queue.pop elem behind) (some .cond1) (.tried (some elem))

/-- The procedure of a call. -/
def procedure (maxSize : Nat) :
    QueueCall α → SafeQueue α → Pass (SafeQueue α) QueueCondition (QueueResult α)
  | .enqueue t => enqueue maxSize t
  | .dequeue => dequeue
  | .tryDequeue => tryDequeue

/-- What there is for the threads that wait: free slots, or elements. -/
def supply (maxSize : Nat) : QueueCondition → SafeQueue α → Nat
  | .cond1, queue => maxSize - queue.queue.length
  | .cond2, queue => queue.queue.length

/-- The elements leave the queue in the order in which they have entered it. -/
structure Sound (maxSize : Nat) (queue : SafeQueue α) : Prop where
  order : queue.removed ++ queue.queue = queue.added
  bound : queue.queue.length ≤ maxSize

variable {maxSize : Nat} {call : QueueCall α} {queue queue' : SafeQueue α}
  {notify : Option QueueCondition} {result : QueueResult α}

/-- The four ways in which a procedure ends. -/
theorem leave_cases (left : procedure maxSize call queue = .leave queue' notify result) :
    (∃ t, call = .enqueue t ∧ queue.queue.length ≠ maxSize ∧ queue' = queue.push t ∧
      notify = some .cond2 ∧ result = .enqueued) ∨
    (∃ front behind, queue.queue = front :: behind ∧ queue' = queue.pop front behind ∧
      notify = some .cond1 ∧ (call = .dequeue ∧ result = .dequeued front ∨
        call = .tryDequeue ∧ result = .tried (some front))) ∨
    queue.queue = [] ∧ queue' = queue ∧ notify = none ∧ call = .tryDequeue ∧
      result = .tried none := by
  cases call with
  | enqueue t =>
      simp only [procedure, enqueue] at left
      split_ifs at left with full
      obtain ⟨rfl, rfl, rfl⟩ := Pass.leave.inj left
      exact .inl ⟨t, rfl, full, rfl, rfl, rfl⟩
  | dequeue =>
      simp only [procedure, dequeue] at left
      cases inQueue : queue.queue with
      | nil => simp [inQueue] at left
      | cons front behind =>
          rw [inQueue] at left
          obtain ⟨rfl, rfl, rfl⟩ := Pass.leave.inj left
          exact .inr (.inl ⟨front, behind, rfl, rfl, rfl, .inl ⟨rfl, rfl⟩⟩)
  | tryDequeue =>
      simp only [procedure, tryDequeue] at left
      cases inQueue : queue.queue with
      | nil =>
          rw [inQueue] at left
          obtain ⟨rfl, rfl, rfl⟩ := Pass.leave.inj left
          exact .inr (.inr ⟨rfl, rfl, rfl, rfl, rfl⟩)
      | cons front behind =>
          rw [inQueue] at left
          obtain ⟨rfl, rfl, rfl⟩ := Pass.leave.inj left
          exact .inr (.inl ⟨front, behind, rfl, rfl, rfl, .inr ⟨rfl, rfl⟩⟩)

/-- The two ways in which a procedure waits. -/
theorem wait_cases {condition : QueueCondition}
    (waits : procedure maxSize call queue = .wait condition) :
    condition = .cond1 ∧ (∃ t, call = .enqueue t) ∧ queue.queue.length = maxSize ∨
      condition = .cond2 ∧ call = .dequeue ∧ queue.queue = [] := by
  cases call with
  | enqueue t =>
      simp only [procedure, enqueue] at waits
      split_ifs at waits with full
      exact .inl ⟨(Pass.wait.inj waits).symm, ⟨t, rfl⟩, full⟩
  | dequeue =>
      simp only [procedure, dequeue] at waits
      cases inQueue : queue.queue with
      | nil =>
          rw [inQueue] at waits
          exact .inr ⟨(Pass.wait.inj waits).symm, rfl, rfl⟩
      | cons front behind => simp [inQueue] at waits
  | tryDequeue =>
      simp only [procedure, tryDequeue] at waits
      cases inQueue : queue.queue <;> simp [inQueue] at waits

theorem sound_empty : Sound maxSize (empty : SafeQueue α) := ⟨rfl, Nat.zero_le _⟩

theorem Sound.leave (sound : Sound maxSize queue)
    (left : procedure maxSize call queue = .leave queue' notify result) :
    Sound maxSize queue' := by
  obtain ⟨order, bound⟩ := sound
  rcases leave_cases left with ⟨t, -, space, rfl, -⟩ | ⟨front, behind, inQueue, rfl, -, -⟩ |
    ⟨-, rfl, -⟩
  · refine ⟨by simp [push, ← order], ?_⟩
    simp only [push, List.length_append, List.length_singleton]
    omega
  · rw [inQueue] at order bound
    simp only [List.length_cons] at bound
    exact ⟨by simp [pop, ← order], (Nat.le_succ _).trans bound⟩
  · exact ⟨order, bound⟩

/-- What has gone in are the arguments of `enqueue`, and what has gone out the results. -/
structure Accounts (queue : SafeQueue α) (returned : List (QueueCall α × QueueResult α)) :
    Prop where
  added : queue.added = returned.flatMap (·.1.handedIn)
  removed : queue.removed = returned.flatMap (·.2.handedOut)

theorem Accounts.leave {returned : List (QueueCall α × QueueResult α)}
    (accounts : Accounts queue returned)
    (left : procedure maxSize call queue = .leave queue' notify result) :
    Accounts queue' (returned ++ [(call, result)]) := by
  obtain ⟨added, removed⟩ := accounts
  rcases leave_cases left with ⟨t, rfl, -, rfl, -, rfl⟩ |
    ⟨front, behind, -, rfl, -, ⟨rfl, rfl⟩ | ⟨rfl, rfl⟩⟩ | ⟨-, rfl, -, rfl, rfl⟩ <;>
    constructor <;>
    simp [push, pop, QueueCall.handedIn, QueueResult.handedOut, added, removed]

section Threads

variable {Thread : Type*} [Fintype Thread] [DecidableEq Thread]
  {monitor : Configuration Thread (SafeQueue α) QueueCondition (QueueCall α) (QueueResult α)}

/-- A suspended thread is not forgotten. -/
theorem notLost (reached : Reach (step (procedure maxSize)) (fun _ _ => True) (initial empty)
    monitor) : NotLost (supply maxSize) monitor := by
  refine notLost_of_reach (Sound maxSize) sound_empty
    (fun call queue queue' notify result sound left => sound.leave left) ?_ ?_ ?_ ?_ reached
  · intro call queue queue' condition condition' waits waits'
    rcases wait_cases waits with ⟨rfl, ⟨t, rfl⟩, -⟩ | ⟨rfl, rfl, -⟩ <;>
      rcases wait_cases waits' with ⟨rfl, isEnqueue, -⟩ | ⟨rfl, isDequeue, -⟩ <;> simp_all
  · intro call queue condition waits
    rcases wait_cases waits with ⟨rfl, -, full⟩ | ⟨rfl, -, none'⟩
    · simp [supply, full]
    · simp [supply, none']
  · intro call queue queue' notify result condition sound left
    rcases leave_cases left with ⟨t, rfl, space, rfl, rfl, -⟩ |
      ⟨front, behind, inQueue, rfl, rfl, -⟩ | ⟨-, rfl, rfl, -⟩
    · cases condition <;> simp [supply, push]
      omega
    · cases condition <;> simp [supply, pop, inQueue]
      omega
    · exact Nat.le_add_right _ _
  · intro call queue queue' notify result condition earlier sound waits left
    rcases wait_cases waits with ⟨rfl, ⟨t, rfl⟩, -⟩ | ⟨rfl, rfl, -⟩
    · rcases leave_cases left with ⟨t', -, space, rfl, -⟩ |
        ⟨_, _, _, _, _, ⟨other, _⟩ | ⟨other, _⟩⟩ | ⟨_, _, _, other, _⟩
      · have bound := sound.bound
        simp only [supply, push, List.length_append, List.length_singleton]
        omega
      all_goals cases other
    · rcases leave_cases left with ⟨_, other, _⟩ | ⟨front, behind, inQueue, rfl, -, -⟩ |
        ⟨_, _, _, other, _⟩
      · cases other
      · simp [supply, pop, inQueue]
      · cases other

omit [DecidableEq Thread] in
/-- What there is for suspended threads, a thread has been notified of. -/
theorem exists_notified {condition : QueueCondition} (notLost : NotLost (supply maxSize) monitor)
    (suspended : ∃ thread, (monitor.threads thread).IsSuspended condition)
    (positive : 1 ≤ supply maxSize condition monitor.state) :
    ∃ thread, (monitor.threads thread).IsNotified condition := by
  have count := positive.trans (notLost condition suspended)
  obtain ⟨thread, member⟩ := Finset.card_pos.1 count
  exact ⟨thread, (Finset.mem_filter.1 member).2⟩

/--
In every run of any number of threads the elements that `dequeue` and
`tryDequeue` have handed out, one call after another, are those removed, the
arguments of the `enqueue`s that have returned are those added, and the removed
ones are the first of the added ones, with the queue behind them.  The queue
keeps its bound, and while a thread is suspended and not notified, the elements
or free slots it could use are no more than the threads that have been notified
of them and have not resumed; so if there is one, some thread has been.
-/
theorem safeQueue_of_trace {moves : List (Move Thread (QueueCall α))}
    (trace : Trace (step (procedure maxSize)) (fun _ _ => True) (initial empty) moves monitor) :
    (outputs (step (procedure maxSize)) (returns (procedure maxSize)) (initial empty)
      moves).flatMap (·.2.handedOut) = monitor.state.removed ∧
    (outputs (step (procedure maxSize)) (returns (procedure maxSize)) (initial empty)
      moves).flatMap (·.1.handedIn) = monitor.state.added ∧
    monitor.state.removed <+: monitor.state.added ∧
    monitor.state.added = monitor.state.removed ++ monitor.state.queue ∧
    monitor.state.queue.length ≤ maxSize ∧
    ((∃ thread, (monitor.threads thread).IsSuspended .cond2) →
      monitor.state.queue.length ≤ notified monitor.threads .cond2 ∧
        (monitor.state.queue ≠ [] → ∃ thread, (monitor.threads thread).IsNotified .cond2)) ∧
    ((∃ thread, (monitor.threads thread).IsSuspended .cond1) →
      maxSize - monitor.state.queue.length ≤ notified monitor.threads .cond1 ∧
        (monitor.state.queue.length < maxSize →
          ∃ thread, (monitor.threads thread).IsNotified .cond1)) := by
  have accounts := returns_invariant Accounts ⟨rfl, rfl⟩
    (fun call queue queue' notify result returned accounts left => accounts.leave left) trace
  have sound := state_invariant (Sound maxSize) sound_empty
    (fun call queue queue' notify result sound left => sound.leave left) trace.reach
  have kept := notLost trace.reach
  refine ⟨accounts.removed.symm, accounts.added.symm, ⟨monitor.state.queue, sound.order⟩,
    sound.order.symm, sound.bound, fun suspended => ?_, fun suspended => ?_⟩
  · refine ⟨kept .cond2 suspended, fun some' => exists_notified kept suspended ?_⟩
    exact List.length_pos_iff.2 some'
  · refine ⟨kept .cond1 suspended, fun space => exists_notified kept suspended ?_⟩
    exact Nat.sub_pos_of_lt space

end Threads

/--
Two threads wait for an element.  The first gets the 7 that a third one adds, and
waits again; then the third one adds an 8 and notifies the first.
-/
theorem safeQueue_of_trace_of_three :
    ∃ monitor : Configuration (Fin 3) (SafeQueue Nat) QueueCondition (QueueCall Nat)
        (QueueResult Nat),
      monitor.state.removed = [7] ∧ monitor.state.added = [7] ++ [8] ∧
        (monitor.threads 1).IsSuspended .cond2 ∧ 1 ≤ notified monitor.threads .cond2 := by
  obtain ⟨monitor, trace, passes⟩ := exists_trace_of_admits (fun _ _ => True)
    [.call 0 .dequeue, .pass 0 none, .call 1 .dequeue, .pass 1 none, .call 2 (.enqueue 7),
      .pass 2 (some 0), .pass 0 none, .call 0 .dequeue, .pass 0 none, .call 2 (.enqueue 8),
      .pass 2 (some 0)]
    (fun monitor : Configuration (Fin 3) (SafeQueue Nat) QueueCondition (QueueCall Nat)
        (QueueResult Nat) =>
      decide (monitor.state.queue = [8] ∧ (monitor.threads 1).IsSuspended .cond2))
    (show admits (step (procedure 1)) _ (initial empty) _ = true by decide)
    (show ends (step (procedure 1)) _ (initial empty) _ = true by decide)
  obtain ⟨inQueue, suspended⟩ := of_decide_eq_true passes
  obtain ⟨out, -, -, order, -, notified', -⟩ := safeQueue_of_trace trace
  have removed : monitor.state.removed = [7] := out.symm.trans (by decide)
  have count := (notified' ⟨1, suspended⟩).1
  rw [inQueue] at order count
  exact ⟨monitor, removed, by rw [order, removed], suspended, count⟩

end SafeQueue

end Mvtx.Server
