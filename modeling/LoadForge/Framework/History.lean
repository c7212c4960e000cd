import Mathlib.Tactic.Ring

namespace LoadForge.Framework

variable {ε : Type} {allowed : List ε → ε → Prop} {history : List ε}

/-- Each event of the history is one that the events before it allow. -/
def Lawful (allowed : List ε → ε → Prop) (history : List ε) : Prop :=
  ∀ before e after, history = before ++ e :: after → allowed before e

theorem lawful_nil : Lawful allowed [] := by
  intro before e after h
  simp at h

theorem Lawful.snoc {e : ε} (h : Lawful allowed history) (he : allowed history e) :
    Lawful allowed (history ++ [e]) := by
  intro before d after hsplit
  rcases List.eq_nil_or_concat after with rfl | ⟨front, last, rfl⟩
  · obtain ⟨rfl, hd⟩ := List.append_inj' hsplit rfl
    cases hd
    exact he
  · rw [List.concat_eq_append, ← List.cons_append, ← List.append_assoc] at hsplit
    obtain ⟨hfront, -⟩ := List.append_inj' hsplit rfl
    exact h before d front hfront

theorem Lawful.of_append {later : List ε} (h : Lawful allowed (history ++ later)) :
    Lawful allowed history := by
  intro before e after hsplit
  apply h before e (after ++ later)
  simp [hsplit]

end LoadForge.Framework
