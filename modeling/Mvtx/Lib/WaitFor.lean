import Mathlib.Data.Fintype.Basic
import Mathlib.Logic.Relation

/-!
# Threads that wait for locks

A lock is held by readers or by one writer.  A thread that asks for a lock waits
for every thread that holds it in a mode which excludes its own, and a deadlock
is a cycle of threads each of which waits for the next.

The rule is `not_deadlocked_of_level`: there is none if whoever waits for a
waiting thread is on a lower level than this.
-/

namespace Mvtx.Lib.WaitFor

/-- How a lock is held. -/
inductive Mode where
  | shared
  | exclusive
  deriving DecidableEq

/-- Whether a lock cannot be held in both modes. -/
def Mode.Excludes (mode other : Mode) : Prop :=
  mode = .exclusive ∨ other = .exclusive

instance (mode other : Mode) : Decidable (mode.Excludes other) :=
  inferInstanceAs (Decidable (_ ∨ _))

theorem Mode.Excludes.exclusive {mode : Mode} (excludes : Mode.shared.Excludes mode) :
    mode = .exclusive :=
  excludes.resolve_left (by simp)

/-- What a thread holds and the lock that it asks for. -/
structure Standing (Lock : Type*) where
  held : List (Lock × Mode)
  wanted : Option (Lock × Mode)

variable {Thread Lock : Type*}

/-- A thread that holds some locks stands in the way of a request for a lock. -/
def Blocks (held : List (Lock × Mode)) (lock : Lock) (mode : Mode) : Prop :=
  ∃ pair ∈ held, pair.1 = lock ∧ mode.Excludes pair.2

instance [DecidableEq Lock] (held : List (Lock × Mode)) (lock : Lock) (mode : Mode) :
    Decidable (Blocks held lock mode) :=
  inferInstanceAs (Decidable (∃ _ ∈ _, _))

/-- A thread waits for another one. -/
def Waits (standing : Thread → Standing Lock) (waiter holder : Thread) : Prop :=
  ∃ request ∈ (standing waiter).wanted, Blocks (standing holder).held request.1 request.2

instance [DecidableEq Lock] (standing : Thread → Standing Lock) (waiter holder : Thread) :
    Decidable (Waits standing waiter holder) :=
  match wanted : (standing waiter).wanted with
  | none => .isFalse (by simp [Waits, wanted])
  | some request =>
      decidable_of_iff (Blocks (standing holder).held request.1 request.2)
        (by simp [Waits, wanted])

/-- Some threads wait for each other in a circle. -/
def Deadlocked (standing : Thread → Standing Lock) : Prop :=
  ∃ thread, Relation.TransGen (Waits standing) thread thread

/-- A lock can be had in a mode if nobody stands in the way. -/
def Available (standing : Thread → Standing Lock) (lock : Lock) (mode : Mode) : Prop :=
  ∀ holder, ¬ Blocks (standing holder).held lock mode

instance [DecidableEq Lock] [Fintype Thread] (standing : Thread → Standing Lock) (lock : Lock)
    (mode : Mode) : Decidable (Available standing lock mode) :=
  inferInstanceAs (Decidable (∀ _, ¬ _))

/-- Whoever waits is below the threads that it waits for, as far as these wait too. -/
theorem not_deadlocked_of_level {standing : Thread → Standing Lock} (level : Thread → Nat)
    (climbs : ∀ waiter holder, Waits standing waiter holder →
      (standing holder).wanted ≠ none → level waiter < level holder) :
    ¬ Deadlocked standing := by
  rintro ⟨thread, circle⟩
  -- Every thread of the circle waits, so the level rises all the way around.
  have waiting : ∀ waiter holder, Waits standing waiter holder →
      (standing waiter).wanted ≠ none := by
    rintro waiter holder ⟨request, wanted, -⟩ none'
    simp [none'] at wanted
  have rises : ∀ first last, Relation.TransGen (Waits standing) first last →
      (standing last).wanted ≠ none → level first < level last := by
    intro first last path
    induction path with
    | single waits => exact climbs _ _ waits
    | tail earlier waits ih =>
        exact fun waits' => (ih (waiting _ _ waits)).trans (climbs _ _ waits waits')
  obtain ⟨next, waits, -⟩ := Relation.TransGen.head'_iff.1 circle
  exact absurd (rises thread thread circle (waiting _ _ waits)) (Nat.lt_irrefl _)

end Mvtx.Lib.WaitFor
