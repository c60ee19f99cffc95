-- Runs that obey a rule. Of a rule for single steps, it is said once what it means for a run,
-- where runs may be cut, and how whatever the steps keep is carried to the end.

namespace PageCache

/-- Every step of a run obeys the rule where it is taken. `next` tells where a step leads. -/
def Along {σ α : Type} (next : σ → α → σ) (rule : σ → α → Prop) (s : σ) : List α → Prop
  | [] => True
  | a :: rest => rule s a ∧ Along next rule (next s a) rest

namespace Along

variable {σ α : Type} {next : σ → α → σ} {rule : σ → α → Prop} {s : σ} {steps : List α}

instance decidable [∀ s a, Decidable (rule s a)] (s : σ) :
    (steps : List α) → Decidable (Along next rule s steps)
  | [] => instDecidableTrue
  | a :: rest =>
    have := decidable (next s a) rest
    inferInstanceAs (Decidable (rule s a ∧ Along next rule (next s a) rest))

/-- A part of a run obeys the rule if the whole run does. -/
theorem append_iff {before rest : List α} : Along next rule s (before ++ rest) ↔
    Along next rule s before ∧ Along next rule (before.foldl next s) rest := by
  induction before generalizing s with
  | nil => exact ⟨fun h => ⟨trivial, h⟩, And.right⟩
  | cons a others ih =>
    refine Iff.trans (and_congr_right fun _ => ih) ⟨?_, ?_⟩
    · rintro ⟨ha, hothers, hrest⟩
      exact ⟨⟨ha, hothers⟩, hrest⟩
    · rintro ⟨⟨ha, hothers⟩, hrest⟩
      exact ⟨ha, hothers, hrest⟩

/-- Whatever holds at the start, and is kept by each step, holds after the run. -/
theorem induction {P : σ → Prop} (hsteps : Along next rule s steps) (h : P s)
    (hstep : ∀ s a, P s → rule s a → P (next s a)) : P (steps.foldl next s) := by
  induction steps generalizing s with
  | nil => exact h
  | cons a rest ih => exact ih hsteps.2 (hstep s a h hsteps.1)

end Along

end PageCache
