import Cutesugar.Lib.Run

/-!
# Unwinding

Some events of a system are seen by an observer, and some are not. `Unwinds` says of a relation between states
that an event that is not seen keeps a state related to what it was related to, and that one that is seen keeps
related states related. A run is then related to the run of the events that are seen alone.
-/

namespace Cutesugar.Lib

variable {σ ι : Type*}

/-- A relation that no event breaks that `ok` allows. -/
structure Unwinds (step : σ → ι → σ) (seen : ι → Bool) (ok : ι → Prop) (R : σ → σ → Prop) : Prop where
  silent : ∀ s t e, ok e → seen e = false → R s t → R (step s e) t
  consistent : ∀ s t e, ok e → seen e = true → R s t → R (step s e) (step t e)

variable {step : σ → ι → σ} {seen : ι → Bool} {ok : ι → Prop} {R : σ → σ → Prop} {s t : σ} {es : List ι}

/-- **A run** against the events of it that are seen. -/
theorem Unwinds.run_filter (h : Unwinds step seen ok R) (hok : ∀ e ∈ es, ok e) (hst : R s t) :
    R (run step s es) (run step t (es.filter seen)) := by
  induction es generalizing s t with
  | nil => exact hst
  | cons e es ih =>
    obtain ⟨he, hes⟩ := List.forall_mem_cons.mp hok
    rw [run_cons]
    cases hseen : seen e with
    | false =>
      rw [List.filter_cons_of_neg (by simp [hseen])]
      exact ih hes (h.silent s t e he hseen hst)
    | true =>
      rw [List.filter_cons_of_pos hseen, run_cons]
      exact ih hes (h.consistent s t e he hseen hst)

end Cutesugar.Lib
