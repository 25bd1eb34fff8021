import Mathlib.Data.List.Nodup
import Mathlib.Data.List.Range
import Mathlib.Logic.Function.Basic

/-!
# A stack in an array

The items of a stack that grows downwards lie in the slots of an array from a position up to a
fixed end. Taking an item moves the position up, putting one back moves it down and overwrites
the slot there, whatever it held before.
-/

namespace Cutesugar.Lib

variable {α : Type*} {slots slots' : ℕ → α} {pos n : ℕ} {x : α} {xs : List α}

/-- The items in the slots from `pos` up to `n`. -/
def window (slots : ℕ → α) (pos n : ℕ) : List α := (List.range' pos (n - pos)).map slots

@[simp] theorem length_window : (window slots pos n).length = n - pos := by
  simp [window]

theorem window_of_le (h : n ≤ pos) : window slots pos n = [] := by
  simp [window, Nat.sub_eq_zero_of_le h]

theorem mem_window : x ∈ window slots pos n ↔ ∃ i, pos ≤ i ∧ i < n ∧ slots i = x := by
  simp only [window, List.mem_map, List.mem_range'_1]
  constructor
  · rintro ⟨i, ⟨hpos, hn⟩, rfl⟩
    exact ⟨i, hpos, by omega, rfl⟩
  · rintro ⟨i, hpos, hn, rfl⟩
    exact ⟨i, ⟨hpos, by omega⟩, rfl⟩

/-- **Taking** an item. -/
theorem window_pop (h : pos < n) :
    window slots pos n = slots pos :: window slots (pos + 1) n := by
  have hlen : n - pos = n - (pos + 1) + 1 := by omega
  rw [window, hlen, List.range'_succ, List.map_cons, window]

/-- Arrays that agree on the slots hold the same items. -/
theorem window_congr (h : ∀ i, pos ≤ i → i < n → slots' i = slots i) :
    window slots' pos n = window slots pos n := by
  apply List.map_congr_left
  intro i hi
  rw [List.mem_range'_1] at hi
  exact h i hi.1 (by omega)

/-- **Putting back** an item. -/
theorem window_push (hpos : pos < n) :
    window (Function.update slots pos x) pos n = x :: window slots (pos + 1) n := by
  rw [window_pop hpos, Function.update_self]
  congr 1
  apply window_congr
  intro i hi _
  exact Function.update_of_ne (by omega) ..

/-- The slots up to `n` and those behind. -/
theorem window_append {k : ℕ} (hpos : pos ≤ k) (hk : k ≤ n) :
    window slots pos k ++ window slots k n = window slots pos n := by
  have hsum : n - pos = (k - pos) + (n - k) := by omega
  rw [window, window, window, hsum, ← List.map_append]
  congr 1
  have happend := @List.range'_append pos (k - pos) (n - k) 1
  rwa [Nat.one_mul, Nat.add_sub_cancel' hpos] at happend

theorem window_sublist {n' : ℕ} (h : n ≤ n') :
    (window slots pos n).Sublist (window slots pos n') := by
  rcases Nat.le_total pos n with hpos | hpos
  · rw [← window_append hpos h]
    exact List.sublist_append_left ..
  · rw [window_of_le hpos]
    exact List.nil_sublist _

/-! ## Filling -/

/-- The array after writing items into the slots from `pos` on. -/
def fill (slots : ℕ → α) (pos : ℕ) (xs : List α) : ℕ → α := fun i =>
  if pos ≤ i then (xs[i - pos]?).getD (slots i) else slots i

@[simp] theorem fill_nil : fill slots pos [] = slots := by
  funext i
  simp [fill]

theorem fill_cons : fill slots pos (x :: xs) = fill (Function.update slots pos x) (pos + 1) xs := by
  funext i
  rcases Nat.lt_trichotomy i pos with hlt | rfl | hgt
  · rw [fill, fill, if_neg (by omega), if_neg (by omega), Function.update_of_ne hlt.ne]
  · rw [fill, fill, if_pos le_rfl, if_neg (by omega), Function.update_self, Nat.sub_self]
    rfl
  · have hidx : i - pos = i - (pos + 1) + 1 := by omega
    rw [fill, fill, if_pos hgt.le, if_pos (Nat.succ_le_of_lt hgt), hidx, List.getElem?_cons_succ,
      Function.update_of_ne hgt.ne']

theorem fill_append {ys : List α} :
    fill slots pos (xs ++ ys) = fill (fill slots pos xs) (pos + xs.length) ys := by
  induction xs generalizing slots pos with
  | nil => rw [fill_nil, List.nil_append, List.length_nil, Nat.add_zero]
  | cons x xs ih =>
    rw [List.cons_append, fill_cons, fill_cons, ih, List.length_cons]
    congr 1
    omega

/-- Slots in front of the items and behind them stay. -/
theorem fill_apply_of_not_mem {i : ℕ} (h : ¬ (pos ≤ i ∧ i < pos + xs.length)) :
    fill slots pos xs i = slots i := by
  rw [fill]
  split_ifs with hpos
  · rw [List.getElem?_eq_none (by omega)]
    rfl
  · rfl

/-- The items are in their slots. -/
theorem window_fill (slots : ℕ → α) (pos : ℕ) (xs : List α) :
    window (fill slots pos xs) pos (pos + xs.length) = xs := by
  induction xs generalizing slots pos with
  | nil => exact window_of_le (Nat.le_refl _)
  | cons x xs ih =>
    have hfirst : fill slots pos (x :: xs) pos = x := by
      rw [fill, if_pos le_rfl, Nat.sub_self]
      rfl
    have hlen : pos + (x :: xs).length = pos + 1 + xs.length := by
      rw [List.length_cons]
      omega
    rw [window_pop (by simp), hfirst, fill_cons, hlen, ih]

end Cutesugar.Lib
