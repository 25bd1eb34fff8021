import Mathlib.Data.List.Basic
import Mathlib.Data.List.TakeDrop
import Mathlib.Tactic.Ring

/-!
# Numbers in byte lists

The value of a list of bytes, the first of them the least significant, and the fields of a record
that is given as the list of its bytes.
-/

namespace Cutesugar.Lib

/-- The little-endian value of some bytes. -/
def littleEndian : List UInt8 → ℕ
  | [] => 0
  | b :: bs => b.toNat + 256 * littleEndian bs

/-- The field of `n` bytes at an offset. -/
def field (bs : List UInt8) (offset n : ℕ) : ℕ := littleEndian ((bs.drop offset).take n)

variable {bs cs : List UInt8} {offset n k : ℕ}

theorem littleEndian_lt (bs : List UInt8) : littleEndian bs < 256 ^ bs.length := by
  induction bs with
  | nil => exact Nat.one_pos
  | cons b bs ih =>
    have hbyte : b.toNat < 256 := b.toNat_lt
    rw [littleEndian, List.length_cons, pow_succ]
    omega

theorem field_lt (bs : List UInt8) (offset n : ℕ) : field bs offset n < 256 ^ n := by
  refine (littleEndian_lt _).trans_le (Nat.pow_le_pow_right (by decide) ?_)
  rw [List.length_take]
  exact Nat.min_le_left ..

/-- A field depends on its own bytes. -/
theorem field_congr (h : (bs.drop offset).take n = (cs.drop offset).take n) :
    field bs offset n = field cs offset n :=
  congrArg littleEndian h

/-- Fields in the first of two lists. -/
theorem field_append (h : offset + n ≤ bs.length) (cs : List UInt8) :
    field (bs ++ cs) offset n = field bs offset n := by
  apply field_congr
  rw [List.drop_append_of_le_length (by omega), List.take_append_of_le_length]
  rw [List.length_drop]
  omega

/-- Elements of pieces of one length that are put behind each other. -/
theorem getElem?_flatMap_range {α : Type} {f : ℕ → List α} {m : ℕ} (hlen : ∀ i, (f i).length = n)
    (hk : k < n * m) : ((List.range m).flatMap f)[k]? = (f (k / n))[k % n]? := by
  induction m with
  | zero => exact absurd hk (Nat.not_lt_zero k)
  | succ m ih =>
    have hbefore : ((List.range m).flatMap f).length = n * m := by
      simp [List.length_flatMap, hlen, Nat.mul_comm]
    rw [List.range_succ, List.flatMap_append, List.flatMap_singleton]
    by_cases hlt : k < n * m
    · rw [List.getElem?_append_left (hbefore.symm ▸ hlt)]
      exact ih hlt
    · -- an element of the last piece
      have hle : n * m ≤ k := Nat.le_of_not_lt hlt
      rw [Nat.mul_succ] at hk
      have hdiv : k / n = m := Nat.div_eq_of_lt_le (by rw [Nat.mul_comm]; exact hle)
        (by rw [Nat.mul_comm, Nat.mul_succ]; exact hk)
      have hmod : k % n = k - n * m := by rw [Nat.mod_eq_sub, hdiv]
      rw [List.getElem?_append_right (hbefore.symm ▸ hle), hbefore, hdiv, hmod]

end Cutesugar.Lib
