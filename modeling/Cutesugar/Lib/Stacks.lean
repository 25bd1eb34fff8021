import Mathlib.Data.Nat.Notation
import Mathlib.Data.List.Basic
import Mathlib.Logic.Function.Basic
import Mathlib.Order.Basic

/-!
# Stacks in memory

Memory is a row of cells, and stacks are blocks of it. Cells are counted in the direction in which
stacks grow. A place is a stack and the number of words below it, so pushing a list of words at a
place writes the words from its cell on, the first one lowest. Nothing keeps a push within the
block of its stack: beyond it the push writes what lies there.

`WordsAt` says that a list of words is found at a place, `Within` that a block of words at a place
is within its stack.
-/

namespace Cutesugar.Lib

/-- A place on a stack: the stack, and the words below the place. -/
structure Place where
  stack : ℕ
  depth : ℕ
  deriving DecidableEq

/-- The place `n` words above. -/
def Place.up (p : Place) (n : ℕ) : Place := ⟨p.stack, p.depth + n⟩

/-- The place `n` words below. -/
def Place.down (p : Place) (n : ℕ) : Place := ⟨p.stack, p.depth - n⟩

@[simp] theorem Place.up_stack (p : Place) (n : ℕ) : (p.up n).stack = p.stack := rfl
@[simp] theorem Place.up_depth (p : Place) (n : ℕ) : (p.up n).depth = p.depth + n := rfl
@[simp] theorem Place.down_stack (p : Place) (n : ℕ) : (p.down n).stack = p.stack := rfl
@[simp] theorem Place.down_depth (p : Place) (n : ℕ) : (p.down n).depth = p.depth - n := rfl
/-- Coming down from above. -/
theorem Place.down_up (p : Place) {n k : ℕ} (h : k ≤ n) : (p.up n).down k = p.up (n - k) := by
  rw [Place.up, Place.down, Place.up, Nat.add_sub_assoc h]

/-! ## Blocks -/

/-- The blocks of the stacks: the first cell of each and the number of its cells. -/
structure StackLayout where
  count : ℕ
  start : ℕ → ℕ
  room : ℕ → ℕ

/-- The cell at a place. -/
def StackLayout.cell (L : StackLayout) (p : Place) : ℕ := L.start p.stack + p.depth

/-- One more stack. -/
def StackLayout.add (L : StackLayout) (start room : ℕ) : StackLayout where
  count := L.count + 1
  start := Function.update L.start L.count start
  room := Function.update L.room L.count room

/-- The blocks do not overlap. -/
def StackLayout.Apart (L : StackLayout) : Prop :=
  ∀ i < L.count, ∀ j < L.count, i ≠ j →
    L.start i + L.room i ≤ L.start j ∨ L.start j + L.room j ≤ L.start i

/-- A block that does not overlap those there are. -/
def StackLayout.Fresh (L : StackLayout) (start room : ℕ) : Prop :=
  ∀ i < L.count, L.start i + L.room i ≤ start ∨ start + room ≤ L.start i

/-- `n` words at a place are within the block of its stack. -/
def StackLayout.Within (L : StackLayout) (p : Place) (n : ℕ) : Prop :=
  p.stack < L.count ∧ p.depth + n ≤ L.room p.stack

instance (L : StackLayout) (start room : ℕ) : Decidable (L.Fresh start room) :=
  inferInstanceAs (Decidable (∀ i < L.count, _))

instance (L : StackLayout) (p : Place) (n : ℕ) : Decidable (L.Within p n) :=
  inferInstanceAs (Decidable (_ ∧ _))

variable {L : StackLayout} {p q : Place} {n n' k k' start room : ℕ}

theorem StackLayout.cell_up (L : StackLayout) (p : Place) (n : ℕ) : L.cell (p.up n) = L.cell p + n :=
  (Nat.add_assoc ..).symm

theorem StackLayout.Within.mono (h : L.Within p n) (hn : n' ≤ n) : L.Within p n' :=
  ⟨h.1, Nat.le_trans (Nat.add_le_add_left hn _) h.2⟩

/-- Some of the words. -/
theorem StackLayout.Within.up (h : L.Within p n) (hn : k + n' ≤ n) : L.Within (p.up k) n' := by
  refine ⟨h.1, ?_⟩
  have := h.2
  rw [Place.up_depth, Place.up_stack]
  omega

/-- The stacks that there are stay where they are. -/
theorem StackLayout.cell_add (h : p.stack < L.count) : (L.add start room).cell p = L.cell p :=
  congrArg (· + p.depth) (Function.update_of_ne (Nat.ne_of_lt h) ..)

theorem StackLayout.Within.add (h : L.Within p n) : (L.add start room).Within p n := by
  refine ⟨Nat.lt_succ_of_lt h.1, ?_⟩
  have hroom : (L.add start room).room p.stack = L.room p.stack :=
    Function.update_of_ne (Nat.ne_of_lt h.1) ..
  rw [hroom]
  exact h.2

/-- The new stack. -/
theorem StackLayout.within_new (h : k + n ≤ room) : (L.add start room).Within ⟨L.count, k⟩ n := by
  refine ⟨Nat.lt_succ_self _, ?_⟩
  have hroom : (L.add start room).room L.count = room := Function.update_self ..
  rw [hroom]
  exact h

theorem StackLayout.Apart.add (h : L.Apart) (hfresh : L.Fresh start room) :
    (L.add start room).Apart := by
  intro i hi j hj hij
  rw [StackLayout.add] at hi hj ⊢
  dsimp only at hi hj ⊢
  rcases eq_or_ne i L.count with rfl | hic
  · rw [Function.update_self, Function.update_self, Function.update_of_ne hij.symm,
      Function.update_of_ne hij.symm]
    exact (hfresh j (by omega)).symm
  · rw [Function.update_of_ne hic, Function.update_of_ne hic]
    rcases eq_or_ne j L.count with rfl | hjc
    · rw [Function.update_self, Function.update_self]
      exact hfresh i (by omega)
    · rw [Function.update_of_ne hjc, Function.update_of_ne hjc]
      exact h i (by omega) j (by omega) hij

/-- Two blocks of words that do not overlap where they are on one stack. -/
def Separate (p : Place) (n : ℕ) (q : Place) (k : ℕ) : Prop :=
  p.stack = q.stack → p.depth + n ≤ q.depth ∨ q.depth + k ≤ p.depth

theorem Separate.symm (h : Separate p n q k) : Separate q k p n :=
  fun hstack => (h hstack.symm).symm

/-- The start of a block. -/
theorem Separate.mono (h : Separate p n q k) (hn : n' ≤ n) (hk : k' ≤ k) :
    Separate p n' q k' := by
  intro hstack
  rcases h hstack with h | h
  · exact .inl (by omega)
  · exact .inr (by omega)

/-- **Apart in memory**: blocks of words within their stacks share no cell unless they overlap on
one stack. -/
theorem Separate.cells (h : Separate p n q k) (hL : L.Apart) (hp : L.Within p n)
    (hq : L.Within q k) : L.cell p + n ≤ L.cell q ∨ L.cell q + k ≤ L.cell p := by
  unfold StackLayout.cell
  have hp' := hp.2
  have hq' := hq.2
  by_cases hstack : p.stack = q.stack
  · rw [hstack] at hp' ⊢
    rcases h hstack with h | h
    · exact .inl (by omega)
    · exact .inr (by omega)
  · rcases hL _ hp.1 _ hq.1 hstack with hle | hle
    · exact .inl (by omega)
    · exact .inr (by omega)

/-! ## Words -/

variable {α : Type*}

/-- The memory after pushing words at a place. -/
def StackLayout.pushAt (L : StackLayout) (mem : ℕ → α) (p : Place) (ws : List α) : ℕ → α := fun cell =>
  if L.cell p ≤ cell then (ws[cell - L.cell p]?).getD (mem cell) else mem cell

/-- The words at a place. -/
def StackLayout.WordsAt (L : StackLayout) (mem : ℕ → α) (p : Place) (ws : List α) : Prop :=
  ∀ i w, ws[i]? = some w → mem (L.cell p + i) = w

variable {mem : ℕ → α} {ws vs : List α}

/-- Words pushed are found. -/
theorem StackLayout.wordsAt_pushAt (L : StackLayout) (mem : ℕ → α) (p : Place) (ws : List α) :
    L.WordsAt (L.pushAt mem p ws) p ws := by
  intro i w hi
  rw [pushAt, if_pos (Nat.le_add_right _ _), Nat.add_sub_cancel_left, hi]
  rfl

/-- **Frame rule**: a push leaves the words of a block apart from its own. -/
theorem StackLayout.WordsAt.pushAt (h : L.WordsAt mem q vs) (hL : L.Apart)
    (hq : L.Within q vs.length) (hp : L.Within p ws.length)
    (hsep : Separate q vs.length p ws.length) : L.WordsAt (L.pushAt mem p ws) q vs := by
  intro i w hi
  have hlt : i < vs.length := (List.getElem?_eq_some_iff.mp hi).1
  rw [StackLayout.pushAt, h i w hi]
  split_ifs with hcell
  · -- the cell is not among those pushed
    have hout : ws.length ≤ L.cell q + i - L.cell p := by
      rcases hsep.cells hL hq hp with hsep | hsep <;> omega
    rw [List.getElem?_eq_none hout]
    rfl
  · rfl

/-- Words stay where they are when there is one more stack. -/
theorem StackLayout.WordsAt.add (h : L.WordsAt mem p ws) (hp : p.stack < L.count) :
    (L.add start room).WordsAt mem p ws := by
  intro i w hi
  rw [StackLayout.cell_add hp]
  exact h i w hi

/-- A list of words in two parts. -/
theorem StackLayout.wordsAt_append : L.WordsAt mem p (ws ++ vs) ↔
    L.WordsAt mem p ws ∧ L.WordsAt mem (p.up ws.length) vs := by
  constructor
  · intro h
    refine ⟨fun i w hi => h i w ?_, fun i w hi => ?_⟩
    · rw [List.getElem?_append_left (List.getElem?_eq_some_iff.mp hi).1, hi]
    · rw [StackLayout.cell_up, Nat.add_assoc]
      apply h
      rw [List.getElem?_append_right (Nat.le_add_right _ _), Nat.add_sub_cancel_left, hi]
  · rintro ⟨hws, hvs⟩ i w hi
    rcases Nat.lt_or_ge i ws.length with hlt | hge
    · rw [List.getElem?_append_left hlt] at hi
      exact hws i w hi
    · rw [List.getElem?_append_right hge] at hi
      have := hvs _ w hi
      rwa [StackLayout.cell_up, Nat.add_assoc, Nat.add_sub_cancel' hge] at this

end Cutesugar.Lib
