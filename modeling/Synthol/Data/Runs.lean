import Mathlib.Init

/-!
# Runs of operations

Two levels of one component, as functions that execute an operation. Where each operation that is allowed returns on the
lower level what it does on the upper one, and keeps a relation between the states (`Simulates`), every run does
(`Simulates.runs`).
-/

namespace Synthol

variable {σ τ ο ρ : Type*}

/-- The operations one after the other. -/
def runs (exec : σ → ο → ρ × σ) (a : σ) : List ο → List ρ × σ
  | [] => ([], a)
  | o :: os => ((exec a o).1 :: (runs exec (exec a o).2 os).1, (runs exec (exec a o).2 os).2)

/-- Each operation is allowed at the time it comes. -/
def Legal (exec : σ → ο → ρ × σ) (allows : σ → ο → Prop) (a : σ) : List ο → Prop
  | [] => True
  | o :: os => allows a o ∧ Legal exec allows (exec a o).2 os

/-- The lower level simulates the upper one. -/
structure Simulates (allows : σ → ο → Prop) (upper : σ → ο → ρ × σ) (lower : τ → ο → ρ × τ)
    (R : σ → τ → Prop) : Prop where
  step : ∀ {a x o}, R a x → allows a o → (lower x o).1 = (upper a o).1 ∧ R (upper a o).2 (lower x o).2

theorem Simulates.runs {allows : σ → ο → Prop} {upper : σ → ο → ρ × σ} {lower : τ → ο → ρ × τ} {R : σ → τ → Prop}
    (h : Simulates allows upper lower R) : ∀ {os a x}, R a x → Legal upper allows a os →
      (runs lower x os).1 = (runs upper a os).1 ∧ R (runs upper a os).2 (runs lower x os).2
  | [], _, _, hr, _ => ⟨rfl, hr⟩
  | _ :: _, _, _, hr, hl => by
    obtain ⟨hret, hr'⟩ := h.step hr hl.1
    obtain ⟨hrets, hrs⟩ := h.runs hr' hl.2
    exact ⟨by rw [Synthol.runs, Synthol.runs, hret, hrets], hrs⟩

end Synthol
