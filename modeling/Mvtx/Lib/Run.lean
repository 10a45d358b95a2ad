import Mathlib.Tactic.Common

/-!
# Runs of labelled steps

A system is a step function that may fail.  `Reach` are the states of the runs
whose every step is allowed in the state it is taken from; its induction rule
turns what one step preserves into what holds in every state reached.  `run`
executes a list of steps, so that a concrete run can be evaluated.
-/

namespace Mvtx.Lib

variable {State Label Error : Type*} {step : State → Label → Except Error State}
  {allowed allowed' : State → Label → Prop} {first middle last : State}

/-- The states which runs of allowed steps reach. -/
inductive Reach (step : State → Label → Except Error State)
    (allowed : State → Label → Prop) (first : State) : State → Prop where
  | refl : Reach step allowed first first
  | tail
      {state state' : State}
      {label : Label}
      (earlier : Reach step allowed first state)
      (permitted : allowed state label)
      (stepped : step state label = .ok state') :
      Reach step allowed first state'

namespace Reach

/-- What holds at first and is preserved by every allowed step holds always. -/
theorem invariant {Invariant : State → Prop}
    (initially : Invariant first)
    (preserved : ∀ state label state', Invariant state → allowed state label →
      step state label = .ok state' → Invariant state')
    (reached : Reach step allowed first last) : Invariant last := by
  induction reached with
  | refl => exact initially
  | tail earlier permitted stepped ih => exact preserved _ _ _ ih permitted stepped

theorem trans (reached : Reach step allowed first middle)
    (further : Reach step allowed middle last) : Reach step allowed first last := by
  induction further with
  | refl => exact reached
  | tail earlier permitted stepped ih => exact .tail ih permitted stepped

theorem mono (weaker : ∀ state label, allowed state label → allowed' state label)
    (reached : Reach step allowed first last) : Reach step allowed' first last := by
  induction reached with
  | refl => exact .refl
  | tail earlier permitted stepped ih => exact .tail ih (weaker _ _ permitted) stepped

end Reach

/-- Take steps one after another. -/
def run (step : State → Label → Except Error State) :
    State → List Label → Except Error State
  | state, [] => .ok state
  | state, label :: labels =>
      match step state label with
      | .ok state' => run step state' labels
      | .error error => .error error

/-- What a check says of the state in which a run ends, false if there is none. -/
def ends (step : State → Label → Except Error State) (check : State → Bool)
    (state : State) (labels : List Label) : Bool :=
  match run step state labels with
  | .ok state' => check state'
  | .error _ => false

theorem reach_of_run {labels : List Label}
    (permitted : ∀ state, ∀ label ∈ labels, allowed state label)
    (ran : run step first labels = .ok last) : Reach step allowed first last := by
  induction labels generalizing first with
  | nil =>
      obtain rfl : first = last := by simpa [run] using ran
      exact .refl
  | cons label labels ih =>
      rw [run] at ran
      split at ran
      · next state' stepped =>
          exact (Reach.tail .refl (permitted first label (by simp)) stepped).trans
            (ih (fun state other member => permitted state other (by simp [member])) ran)
      · exact absurd ran (by simp)

/-- A run that passes a check at its end gives a state that can be reached. -/
theorem exists_reach_of_ends
    (allowed : State → Label → Prop) (labels : List Label) (check : State → Bool)
    (permitted : ∀ state, ∀ label ∈ labels, allowed state label)
    (passes : ends step check first labels = true) :
    ∃ last, Reach step allowed first last ∧ check last = true := by
  unfold ends at passes
  split at passes
  · next last ran => exact ⟨last, reach_of_run permitted ran, passes⟩
  · exact absurd passes (by simp)

/-- Whether every step of a run is allowed in the state it is taken from. -/
def admits (step : State → Label → Except Error State) (allowed : State → Label → Prop)
    [∀ state label, Decidable (allowed state label)] : State → List Label → Bool
  | _, [] => true
  | state, label :: labels =>
      allowed state label &&
        match step state label with
        | .ok state' => admits step allowed state' labels
        | .error _ => true

theorem reach_of_admits [∀ state label, Decidable (allowed state label)] {labels : List Label}
    (admitted : admits step allowed first labels = true)
    (ran : run step first labels = .ok last) : Reach step allowed first last := by
  induction labels generalizing first with
  | nil =>
      obtain rfl : first = last := by simpa [run] using ran
      exact .refl
  | cons label labels ih =>
      rw [admits, Bool.and_eq_true] at admitted
      obtain ⟨permitted, rest⟩ := admitted
      rw [run] at ran
      split at ran
      · next state' stepped =>
          rw [stepped] at rest
          exact (Reach.tail .refl (by simpa using permitted) stepped).trans (ih rest ran)
      · exact absurd ran (by simp)

/-- A run of allowed steps that passes a check at its end. -/
theorem exists_reach_of_admits
    (allowed : State → Label → Prop) [∀ state label, Decidable (allowed state label)]
    (labels : List Label) (check : State → Bool)
    (admitted : admits step allowed first labels = true)
    (passes : ends step check first labels = true) :
    ∃ last, Reach step allowed first last ∧ check last = true := by
  unfold ends at passes
  split at passes
  · next last ran => exact ⟨last, reach_of_admits admitted ran, passes⟩
  · exact absurd passes (by simp)

/-- Whether a step is allowed and taken, and what a check says of the states around it. -/
def stepPasses (step : State → Label → Except Error State) (allowed : State → Label → Prop)
    [∀ state label, Decidable (allowed state label)] (label : Label)
    (check : State → State → Bool) (state : State) : Bool :=
  allowed state label &&
    match step state label with
    | .ok state' => check state state'
    | .error _ => false

/-- A run of allowed steps, and one more whose states pass a check. -/
theorem exists_step_of_admits
    (allowed : State → Label → Prop) [∀ state label, Decidable (allowed state label)]
    (labels : List Label) (label : Label) (check : State → State → Bool)
    (admitted : admits step allowed first labels = true)
    (passes : ends step (stepPasses step allowed label check) first labels = true) :
    ∃ last last', Reach step allowed first last ∧ allowed last label ∧
      step last label = .ok last' ∧ check last last' = true := by
  obtain ⟨last, reached, holds⟩ := exists_reach_of_admits allowed labels _ admitted passes
  obtain ⟨permitted, holds⟩ := Bool.and_eq_true_iff.1 holds
  split at holds
  · next last' stepped =>
      exact ⟨last, last', reached, of_decide_eq_true permitted, stepped, holds⟩
  · exact absurd holds (by decide)

/-! ## Runs with their labels -/

/-- The runs of allowed steps, each with its labels and the state in which it ends. -/
inductive Trace (step : State → Label → Except Error State)
    (allowed : State → Label → Prop) (first : State) : List Label → State → Prop where
  | refl : Trace step allowed first [] first
  | tail
      {labels : List Label}
      {state state' : State}
      {label : Label}
      (earlier : Trace step allowed first labels state)
      (permitted : allowed state label)
      (stepped : step state label = .ok state') :
      Trace step allowed first (labels ++ [label]) state'

namespace Trace

variable {labels labels' : List Label}

theorem reach (trace : Trace step allowed first labels last) : Reach step allowed first last := by
  induction trace with
  | refl => exact .refl
  | tail earlier permitted stepped ih => exact .tail ih permitted stepped

theorem mono (weaker : ∀ state label, allowed state label → allowed' state label)
    (trace : Trace step allowed first labels last) : Trace step allowed' first labels last := by
  induction trace with
  | refl => exact .refl
  | tail earlier permitted stepped ih => exact .tail ih (weaker _ _ permitted) stepped

theorem trans (trace : Trace step allowed first labels middle)
    (further : Trace step allowed middle labels' last) :
    Trace step allowed first (labels ++ labels') last := by
  induction further with
  | refl => simpa using trace
  | tail earlier permitted stepped ih =>
      rw [← List.append_assoc]
      exact .tail ih permitted stepped

end Trace

/-- A run is matched by a run of another system, if each of its steps is matched by some. -/
theorem Trace.simulated {State' Label' Error' : Type*}
    {step' : State' → Label' → Except Error' State'} {allowed' : State' → Label' → Prop}
    {first' : State'} (Related : List Label → State → List Label' → State' → Prop)
    (initially : Related [] first [] first')
    (matched : ∀ labels state label state' labels' middle, Related labels state labels' middle →
      allowed state label → step state label = .ok state' →
      ∃ more last, Trace step' allowed' middle more last ∧
        Related (labels ++ [label]) state' (labels' ++ more) last)
    {labels : List Label} (trace : Trace step allowed first labels last) :
    ∃ labels' last', Trace step' allowed' first' labels' last' ∧
      Related labels last labels' last' := by
  induction trace with
  | refl => exact ⟨[], first', .refl, initially⟩
  | tail earlier permitted stepped ih =>
      obtain ⟨labels', middle, trace', related⟩ := ih
      obtain ⟨more, last', further, related'⟩ := matched _ _ _ _ _ _ related permitted stepped
      exact ⟨labels' ++ more, last', trace'.trans further, related'⟩

theorem trace_of_admits [∀ state label, Decidable (allowed state label)] {labels : List Label}
    (admitted : admits step allowed first labels = true)
    (ran : run step first labels = .ok last) : Trace step allowed first labels last := by
  induction labels generalizing first with
  | nil =>
      obtain rfl : first = last := by simpa [run] using ran
      exact .refl
  | cons label labels ih =>
      rw [admits, Bool.and_eq_true] at admitted
      obtain ⟨permitted, rest⟩ := admitted
      rw [run] at ran
      split at ran
      · next state' stepped =>
          rw [stepped] at rest
          exact (Trace.tail .refl (by simpa using permitted) stepped).trans (ih rest ran)
      · exact absurd ran (by simp)

/-- A list of allowed steps that passes a check at its end. -/
theorem exists_trace_of_admits
    (allowed : State → Label → Prop) [∀ state label, Decidable (allowed state label)]
    (labels : List Label) (check : State → Bool)
    (admitted : admits step allowed first labels = true)
    (passes : ends step check first labels = true) :
    ∃ last, Trace step allowed first labels last ∧ check last = true := by
  unfold ends at passes
  split at passes
  · next last ran => exact ⟨last, trace_of_admits admitted ran, passes⟩
  · exact absurd passes (by simp)

/-! ## What runs put out -/

section Outputs

variable {Output : Type*} {output : State → Label → List Output} {labels more : List Label}
  {label : Label}

/-- What the steps of a run put out, in this order. -/
def outputs (step : State → Label → Except Error State) (output : State → Label → List Output) :
    State → List Label → List Output
  | _, [] => []
  | state, label :: labels =>
      output state label ++
        match step state label with
        | .ok state' => outputs step output state' labels
        | .error _ => []

theorem run_append (ran : run step first labels = .ok middle) :
    run step first (labels ++ more) = run step middle more := by
  induction labels generalizing first with
  | nil =>
      obtain rfl : first = middle := by simpa [run] using ran
      rfl
  | cons label labels ih =>
      rw [run] at ran
      split at ran
      · next state' stepped =>
          rw [List.cons_append, run, stepped]
          exact ih ran
      · exact absurd ran (by simp)

theorem outputs_append (ran : run step first labels = .ok middle) :
    outputs step output first (labels ++ more) =
      outputs step output first labels ++ outputs step output middle more := by
  induction labels generalizing first with
  | nil =>
      obtain rfl : first = middle := by simpa [run] using ran
      rfl
  | cons label labels ih =>
      rw [run] at ran
      split at ran
      · next state' stepped =>
          simp only [List.cons_append, outputs, stepped]
          rw [ih ran, List.append_assoc]
      · exact absurd ran (by simp)

theorem Trace.run_eq (trace : Trace step allowed first labels last) :
    run step first labels = .ok last := by
  induction trace with
  | refl => rfl
  | tail earlier permitted stepped ih => simp only [run_append ih, run, stepped]

/-- What steps preserve of the state and of all that has been put out holds always. -/
theorem Trace.outputs_invariant (Invariant : State → List Output → Prop)
    (initially : Invariant first [])
    (preserved : ∀ state put label state', Invariant state put → allowed state label →
      step state label = .ok state' → Invariant state' (put ++ output state label))
    (trace : Trace step allowed first labels last) :
    Invariant last (outputs step output first labels) := by
  induction trace with
  | refl => exact initially
  | tail earlier permitted stepped ih =>
      simp only [outputs_append earlier.run_eq, outputs, stepped, List.append_nil]
      exact preserved _ _ _ _ ih permitted stepped

end Outputs

/-- If every allowed step can be taken wherever runs get, then every list of them runs. -/
theorem exists_run (Invariant : State → Prop) (labels : List Label)
    (progress : ∀ state label, Invariant state → label ∈ labels →
      ∃ state', step state label = .ok state' ∧ Invariant state')
    (initially : Invariant first) :
    ∃ last, run step first labels = .ok last ∧ Invariant last := by
  induction labels generalizing first with
  | nil => exact ⟨first, rfl, initially⟩
  | cons label labels ih =>
      obtain ⟨state', stepped, holds⟩ := progress first label initially (by simp)
      obtain ⟨last, ran, holds'⟩ :=
        ih (fun state other inv member => progress state other inv (by simp [member])) holds
      exact ⟨last, by rw [run, stepped]; exact ran, holds'⟩

end Mvtx.Lib
