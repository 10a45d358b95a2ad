import Mathlib.Data.List.Induction

/-!
# What the last call has left

What a variable holds after some calls is what the last call that touched it has
made of it.  What a call does may depend on the calls before it.
-/

namespace Mvtx.Lib.History

variable {α β : Type*} {gives : List α → α → β → Prop} {touches : List α → α → Prop}
  {history : List α} {call : α} {value : β}

/-- The last call that touches a variable gives it a value. -/
def LastGives (gives : List α → α → β → Prop) (touches : List α → α → Prop)
    (history : List α) (value : β) : Prop :=
  ∃ before call after,
    history = before ++ call :: after ∧ gives before call value ∧
      ∀ inner other rest, after = inner ++ other :: rest →
        ¬ touches (before ++ call :: inner) other

theorem not_lastGives_nil : ¬ LastGives gives touches [] value := by
  rintro ⟨before, call, after, whole, -⟩
  simp at whole

/-- One more call gives a value itself or leaves the one that there is. -/
theorem lastGives_append_singleton :
    LastGives gives touches (history ++ [call]) value ↔
      gives history call value ∨
        ¬ touches history call ∧ LastGives gives touches history value := by
  constructor
  · rintro ⟨before, giver, after, whole, given, untouched⟩
    rcases List.eq_nil_or_concat after with rfl | ⟨after, last, rfl⟩
    · obtain ⟨rfl, same⟩ := List.append_inj' whole rfl
      obtain rfl := List.singleton_inj.1 same
      exact .inl given
    · rw [List.concat_eq_append, ← List.cons_append, ← List.append_assoc] at whole
      obtain ⟨rfl, same⟩ := List.append_inj' whole rfl
      obtain rfl := List.singleton_inj.1 same
      refine .inr ⟨untouched after call [] (by simp), before, giver, after, rfl, given, ?_⟩
      rintro inner other rest rfl
      exact untouched inner other (rest ++ [call]) (by simp)
  · rintro (given | ⟨untouched, before, giver, after, rfl, given, kept⟩)
    · exact ⟨history, call, [], rfl, given, by simp⟩
    · refine ⟨before, giver, after ++ [call], by simp, given, ?_⟩
      intro inner other rest split
      rcases List.eq_nil_or_concat rest with rfl | ⟨rest, last, rfl⟩
      · obtain ⟨rfl, same⟩ := List.append_inj' split rfl
        obtain rfl := List.singleton_inj.1 same
        exact untouched
      · rw [List.concat_eq_append, ← List.cons_append, ← List.append_assoc] at split
        obtain ⟨rfl, -⟩ := List.append_inj' split rfl
        exact kept inner other rest rfl

end Mvtx.Lib.History
