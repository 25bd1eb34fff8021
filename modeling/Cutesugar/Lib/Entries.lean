import Mathlib.Data.Nat.Notation
import Mathlib.Data.Nat.Basic

/-!
# Entries behind each other

Entries of different sizes, each of which says how long it is: the next one begins where it ends.
`size a` is the size of an entry that begins at `a`, where there is one.
-/

namespace Cutesugar.Lib

/-- Where the entry with a number begins. -/
def entryAt (size : ℕ → Option ℕ) (start : ℕ) : ℕ → Option ℕ
  | 0 => some start
  | j + 1 => do
    let a ← entryAt size start j
    let n ← size a
    some (a + n)

/-- An entry begins there. -/
def Begins (size : ℕ → Option ℕ) (start a : ℕ) : Prop := ∃ j, entryAt size start j = some a

variable {size : ℕ → Option ℕ} {start a b n j k : ℕ}

theorem entryAt_succ :
    entryAt size start (j + 1) = some b ↔
      ∃ a n, entryAt size start j = some a ∧ size a = some n ∧ a + n = b := by
  simp [entryAt, Option.bind_eq_some_iff]

theorem begins_start (size : ℕ → Option ℕ) (start : ℕ) : Begins size start start := ⟨0, rfl⟩

theorem Begins.next (h : Begins size start a) (hn : size a = some n) : Begins size start (a + n) := by
  obtain ⟨j, hj⟩ := h
  exact ⟨j + 1, entryAt_succ.mpr ⟨a, n, hj, hn, rfl⟩⟩

/-- Entries with greater numbers begin later. -/
theorem entryAt_mono (hjk : j ≤ k) (ha : entryAt size start j = some a)
    (hb : entryAt size start k = some b) : a ≤ b := by
  induction hjk generalizing b with
  | refl => exact le_of_eq (Option.some.inj (ha.symm.trans hb))
  | step _ ih =>
    obtain ⟨c, n, hc, -, rfl⟩ := entryAt_succ.mp hb
    exact Nat.le_trans (ih hc) (Nat.le_add_right c n)

theorem Begins.start_le (h : Begins size start a) : start ≤ a := by
  obtain ⟨j, hj⟩ := h
  exact entryAt_mono (Nat.zero_le j) rfl hj

/-- **No entry begins within another one.** -/
theorem Begins.le_or_next_le (ha : Begins size start a) (hn : size a = some n)
    (hb : Begins size start b) : b ≤ a ∨ a + n ≤ b := by
  obtain ⟨j, hj⟩ := ha
  obtain ⟨k, hk⟩ := hb
  rcases Nat.lt_or_ge j k with hlt | hge
  · -- the entry behind the one at `a` has a number up to that of `b`
    right
    exact entryAt_mono hlt (entryAt_succ.mpr ⟨a, n, hj, hn, rfl⟩) hk
  · left
    exact entryAt_mono hge hk hj

end Cutesugar.Lib
