import Mathlib.Data.Nat.Find
import Mathlib.Data.Nat.Notation

/-!
# Polling

A polling loop asks the same question round after round, of values that nothing in the loop decides, and ends
at the first round whose answer is yes. Given enough rounds it ends exactly if there is such a round.
-/

namespace Cutesugar.Lib

/-- A loop that asks from round `k` on, for a number of rounds; `none` when they are used up. -/
def poll (stop : ℕ → Prop) [DecidablePred stop] : ℕ → ℕ → Option ℕ
  | 0, _ => none
  | fuel + 1, k => if stop k then some k else poll stop fuel (k + 1)

/-- Round `m` is the first one from `k` on whose answer is yes. -/
structure FirstFrom (stop : ℕ → Prop) (k m : ℕ) : Prop where
  le : k ≤ m
  holds : stop m
  before : ∀ j, k ≤ j → j < m → ¬ stop j

variable {stop : ℕ → Prop} {k m n fuel : ℕ}

theorem FirstFrom.unique (h : FirstFrom stop k m) (h' : FirstFrom stop k n) : m = n := by
  rcases Nat.lt_trichotomy m n with hlt | heq | hgt
  · exact absurd h.holds (h'.before m h.le hlt)
  · exact heq
  · exact absurd h'.holds (h.before n h'.le hgt)

theorem FirstFrom.self (h : stop k) : FirstFrom stop k k where
  le := Nat.le_refl k
  holds := h
  before _ hle hlt := absurd hlt (Nat.not_lt.mpr hle)

/-- A round that answers no may be left out. -/
theorem firstFrom_succ_iff (h : ¬ stop k) : FirstFrom stop (k + 1) m ↔ FirstFrom stop k m := by
  constructor
  · intro hfirst
    refine { le := Nat.le_of_succ_le hfirst.le, holds := hfirst.holds, before := ?_ }
    intro j hle hlt
    rcases Nat.eq_or_lt_of_le hle with rfl | hlt'
    · exact h
    · exact hfirst.before j hlt' hlt
  · intro hfirst
    have hne : k ≠ m := fun heq => h (heq ▸ hfirst.holds)
    exact
      { le := Nat.lt_of_le_of_ne hfirst.le hne
        holds := hfirst.holds
        before := fun j hle hlt => hfirst.before j (Nat.le_of_succ_le hle) hlt }

/-- Where some round answers yes, one is the first. -/
theorem exists_firstFrom (h : ∃ m, stop m) : ∃ m, FirstFrom stop 0 m := by
  classical
  refine ⟨Nat.find h, { le := Nat.zero_le _, holds := Nat.find_spec h, before := ?_ }⟩
  exact fun j _ hlt => Nat.find_min h hlt

variable [DecidablePred stop]

/-- **Poll rule**: the loop ends at the first round whose answer is yes. -/
theorem poll_eq_some_iff : poll stop fuel k = some m ↔ FirstFrom stop k m ∧ m < k + fuel := by
  induction fuel generalizing k with
  | zero =>
    apply iff_of_false
    · exact fun h => nomatch h
    · exact fun h => absurd h.2 (Nat.not_lt.mpr h.1.le)
  | succ fuel ih =>
    by_cases hstop : stop k
    · rw [poll, if_pos hstop]
      constructor
      · intro h
        cases h
        exact ⟨.self hstop, Nat.lt_add_of_pos_right (Nat.succ_pos fuel)⟩
      · intro h
        rw [h.1.unique (.self hstop)]
    · rw [poll, if_neg hstop, ih, firstFrom_succ_iff hstop, Nat.succ_add_eq_add_succ]

/-- The loop ends, given enough rounds. -/
theorem FirstFrom.poll_eq (h : FirstFrom stop 0 m) (hfuel : m < fuel) : poll stop fuel 0 = some m := by
  apply poll_eq_some_iff.mpr
  exact ⟨h, by rwa [Nat.zero_add]⟩

end Cutesugar.Lib
