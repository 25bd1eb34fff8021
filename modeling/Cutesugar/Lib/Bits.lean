import Mathlib.Algebra.Order.Group.Nat
import Mathlib.Data.Nat.Bitwise
import Mathlib.Tactic.Ring

/-!
# Bit fields of natural numbers

Masks and unions of machine words as arithmetic: a mask whose set bits are a run
`[lo, hi)` cuts a field out by a remainder and a division, and the union of two words that
share no bit is their sum.
-/

namespace Cutesugar.Lib

/-- The bits of the mask `2 ^ hi - 2 ^ lo` are exactly those from `lo` up to `hi`. -/
theorem testBit_field_mask {lo hi : ℕ} (h : lo ≤ hi) (i : ℕ) :
    (2 ^ hi - 2 ^ lo).testBit i = (decide (lo ≤ i) && decide (i < hi)) := by
  have hsplit : 2 ^ hi - 2 ^ lo = (2 ^ (hi - lo) - 1) <<< lo := by
    rw [Nat.shiftLeft_eq, Nat.sub_mul, ← pow_add, Nat.sub_add_cancel h, one_mul]
  rw [hsplit, Nat.testBit_shiftLeft, Nat.testBit_two_pow_sub_one]
  by_cases hlo : lo ≤ i
  · have hlt : i - lo < hi - lo ↔ i < hi := by omega
    simp [hlo, hlt]
  · simp [hlo]

/-- **Field mask**: masking with `2 ^ hi - 2 ^ lo` drops the bits from `hi` on and clears
the bits below `lo`. -/
theorem land_field_mask {lo hi : ℕ} (h : lo ≤ hi) (x : ℕ) :
    x &&& (2 ^ hi - 2 ^ lo) = x % 2 ^ hi / 2 ^ lo * 2 ^ lo := by
  apply Nat.eq_of_testBit_eq
  intro i
  rw [Nat.testBit_land, testBit_field_mask h, ← Nat.shiftLeft_eq, Nat.testBit_shiftLeft,
    Nat.testBit_div_two_pow, Nat.testBit_mod_two_pow]
  by_cases hlo : lo ≤ i
  · simp [hlo, Nat.sub_add_cancel hlo, Bool.and_comm]
  · simp [hlo]

/-- Words that share no bit: their union is their sum. -/
theorem lor_eq_add_of_land_eq_zero {x y : ℕ} (h : x &&& y = 0) : x ||| y = x + y := by
  induction x using Nat.strong_induction_on generalizing y with
  | _ x ih =>
    by_cases hx : x = 0
    · simp [hx]
    have hhalf : x / 2 ||| y / 2 = x / 2 + y / 2 :=
      ih (x / 2) (by omega) (by rw [← Nat.and_div_two, h])
    have hlow : ¬ (x % 2 = 1 ∧ y % 2 = 1) := by
      rw [← Nat.and_mod_two_eq_one, h]; decide
    have hdiv : (x ||| y) / 2 = x / 2 + y / 2 := by rw [Nat.or_div_two, hhalf]
    have hmod : (x ||| y) % 2 = 1 ↔ x % 2 = 1 ∨ y % 2 = 1 := Nat.or_mod_two_eq_one
    omega

/-- A field and a value below it: their union is their sum. -/
theorem mul_two_pow_lor {i v : ℕ} (k : ℕ) (hv : v < 2 ^ i) : k * 2 ^ i ||| v = k * 2 ^ i + v := by
  rw [mul_comm, ← Nat.two_pow_add_eq_or_of_lt hv]

/-- **A word from its pieces**: two of 16 bits and one of 32, each back at its place. -/
theorem lor_three_fields {x : ℕ} (hx : x < 2 ^ 64) :
    x % 2 ^ 16 ||| (x >>> 16 % 2 ^ 16) <<< 16 % 2 ^ 64 ||| (x >>> 32 % 2 ^ 32) <<< 32 % 2 ^ 64 = x := by
  apply Nat.eq_of_testBit_eq
  intro i
  simp only [Nat.testBit_or, Nat.testBit_mod_two_pow, Nat.testBit_shiftLeft, Nat.testBit_shiftRight]
  rcases Nat.lt_or_ge i 64 with hi | hi
  · rcases Nat.lt_or_ge i 16 with h | h
    · simp [h, show ¬ 16 ≤ i by omega, show ¬ 32 ≤ i by omega]
    · rcases Nat.lt_or_ge i 32 with h' | h'
      · simp [hi, h, show ¬ i < 16 by omega, show ¬ 32 ≤ i by omega, show i - 16 < 16 by omega]
      · simp [hi, h', show ¬ i < 16 by omega, show ¬ i - 16 < 16 by omega, show i - 32 < 32 by omega]
  · rw [Nat.testBit_lt_two_pow (hx.trans_le (Nat.pow_le_pow_right (by decide) hi))]
    simp [show ¬ i < 64 by omega, show ¬ i < 16 by omega]

end Cutesugar.Lib
