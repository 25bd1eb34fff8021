import Mathlib.Data.List.Infix

/-!
# Descending through linked tables

A store of tables is a function `child : T → I → Option T` that gives the table an index of
a table leads to, if it leads anywhere. `descend child a p` follows the indices `p` from the
table `a`. The results say what a descent sees after one edge of the store was changed: it is
the old descent, or it passes through that edge.
-/

namespace Cutesugar.Lib

variable {T I : Type*}

/-- Follow the indices from a table. -/
def descend (child : T → I → Option T) (a : T) : List I → Option T
  | [] => some a
  | i :: p => (child a i).bind (descend child · p)

variable {G G' : T → I → Option T} {a t u F : T} {i : I} {p q rest : List I}

@[simp] theorem descend_nil : descend G a [] = some a := rfl

theorem descend_cons : descend G a (i :: p) = (G a i).bind (descend G · p) := rfl

theorem descend_append : descend G a (p ++ q) = (descend G a p).bind (descend G · q) := by
  induction p generalizing a with
  | nil => rfl
  | cons i p ih =>
    rw [List.cons_append, descend_cons, descend_cons]
    cases G a i with
    | none => rfl
    | some b => exact ih

theorem descend_snoc : descend G a (p ++ [i]) = (descend G a p).bind (G · i) := by
  rw [descend_append]
  congr
  funext b
  cases h : G b i <;> simp [descend_cons, h]

/-- A descent that arrives has arrived at every table before. -/
theorem exists_of_descend_append (h : descend G a (p ++ q) = some u) :
    ∃ b, descend G a p = some b ∧ descend G b q = some u := by
  rw [descend_append] at h
  exact Option.bind_eq_some_iff.mp h

/-- **One edge changed**: a descent in the new store is the descent in the old one, or it
passes through the changed edge, which it reaches over unchanged ones. -/
theorem descend_or_passes
    (hframe : ∀ p j, p ++ [j] <+: q → ∀ u, descend G a p = some u →
      (u = t ∧ j = i) ∨ G' u j = G u j) :
    descend G' a q = descend G a q ∨
      ∃ p rest, q = p ++ i :: rest ∧ descend G a p = some t ∧ descend G' a p = some t := by
  induction q generalizing a with
  | nil => exact .inl rfl
  | cons j q ih =>
    rcases hframe [] j (by simp) a rfl with ⟨rfl, rfl⟩ | hsame
    · exact .inr ⟨[], q, rfl, rfl, rfl⟩
    · rw [descend_cons, descend_cons, hsame]
      cases hb : G a j with
      | none => exact .inl rfl
      | some b =>
        have hrest := ih fun p k hp u hu =>
          hframe (j :: p) k (by simpa using hp) u (by simpa [descend_cons, hb] using hu)
        rcases hrest with h | ⟨p, rest, rfl, hold, hnew⟩
        · exact .inl h
        · refine .inr ⟨j :: p, rest, rfl, ?_, ?_⟩
          · simpa [descend_cons, hb] using hold
          · simpa [descend_cons, hsame, hb] using hnew

/-- Stores that agree along a descent give the same descent. -/
theorem descend_congr
    (hframe : ∀ p j, p ++ [j] <+: q → ∀ u, descend G a p = some u → G' u j = G u j) :
    descend G' a q = descend G a q := by
  induction q generalizing a with
  | nil => rfl
  | cons j q ih =>
    rw [descend_cons, descend_cons, hframe [] j (by simp) a rfl]
    cases hb : G a j with
    | none => rfl
    | some b =>
      exact ih fun p k hp u hu =>
        hframe (j :: p) k (by simpa using hp) u (by simpa [descend_cons, hb] using hu)

/-- A descent through an edge that leads nowhere does not arrive. -/
theorem descend_of_absent (hp : descend G a p = some t) (habsent : G t i = none) :
    descend G a (p ++ i :: rest) = none := by
  simp [descend_append, hp, descend_cons, habsent]

/-- A descent through an edge to a table without children arrives there or nowhere. -/
theorem descend_of_leaf (hp : descend G a p = some t) (hedge : G t i = some F)
    (hleaf : ∀ j ∈ rest.head?, G F j = none) :
    descend G a (p ++ i :: rest) = if rest = [] then some F else none := by
  rw [descend_append, hp, Option.bind_some, descend_cons, hedge, Option.bind_some]
  cases rest with
  | nil => rfl
  | cons j rest => simp [descend_cons, hleaf j (by simp)]

end Cutesugar.Lib
