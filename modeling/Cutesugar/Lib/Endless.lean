import Mathlib.Data.Nat.Notation
import Mathlib.Order.Basic

/-!
# Endless runs

A run that does not end is a function from the number of a step to its event. What is fair about such a run
is said of the events; the rules below package the induction over its states once, and the descent of a rank
that shows that something happens in the end.
-/

namespace Cutesugar.Lib

variable {σ ι : Type*}

/-- The states of an endless run. -/
def endless (step : σ → ι → σ) (s : σ) (es : ℕ → ι) : ℕ → σ
  | 0 => s
  | n + 1 => step (endless step s es n) (es n)

/-- Each event satisfies the guard `R` where it happens. -/
def Guarded (step : σ → ι → σ) (R : σ → ι → Prop) (s : σ) (es : ℕ → ι) : Prop :=
  ∀ n, R (endless step s es n) (es n)

variable {step : σ → ι → σ} {R : σ → ι → Prop} {Inv : σ → Prop} {s : σ} {es : ℕ → ι}

/-- **Invariant rule**: what guarded steps keep holds throughout. -/
theorem Guarded.invariant (h : Guarded step R s es) (hstart : Inv s)
    (hstep : ∀ s e, Inv s → R s e → Inv (step s e)) (n : ℕ) : Inv (endless step s es n) := by
  induction n with
  | zero => exact hstart
  | succ n ih => exact hstep _ _ ih (h n)

/-- **Rank rule**: a rank that no guarded step raises is at most what it was. -/
theorem Guarded.rank_le {rank : σ → ℕ} (h : Guarded step R s es) (hstart : Inv s)
    (hstep : ∀ s e, Inv s → R s e → Inv (step s e))
    (hrank : ∀ s e, Inv s → R s e → rank (step s e) ≤ rank s) {m n : ℕ} (hmn : m ≤ n) :
    rank (endless step s es n) ≤ rank (endless step s es m) := by
  induction hmn with
  | refl => exact Nat.le_refl _
  | step _ ih => exact Nat.le_trans (hrank _ _ (h.invariant hstart hstep _) (h _)) ih

/-- **Descent**: if a rank sinks after each state without a property, some state has it. -/
theorem exists_of_descent (rank : σ → ℕ) {P : σ → Prop} {run : ℕ → σ}
    (h : ∀ n, P (run n) ∨ ∃ m, rank (run m) < rank (run n)) : ∃ n, P (run n) := by
  have hall : ∀ r n, rank (run n) = r → ∃ n, P (run n) := by
    intro r
    induction r using Nat.strongRecOn with
    | _ r ih =>
      rintro n rfl
      rcases h n with hn | ⟨m, hm⟩
      · exact ⟨n, hn⟩
      · exact ih _ hm m rfl
  exact hall _ 0 rfl

end Cutesugar.Lib
