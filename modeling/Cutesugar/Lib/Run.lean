import Mathlib.Data.List.Infix

/-!
# Runs of a state machine

A system is a state type `σ`, a type of events `ι` and a step function
`σ → ι → σ`. A run is a list of events. Two predicates talk about a whole run:

- `Along step R s es`: every step of the run is taken in a state and with an event
  that satisfy the guard `R`.
- `Everywhere step P s es`: the property `P` holds in every state the run visits,
  the first and the last included.

The rules below package the induction over runs once: an invariant that guarded steps
keep gives `Everywhere`, and when every unguarded step breaks the property the two
notions coincide.
-/

namespace Cutesugar.Lib

variable {σ ι : Type*}

/-! ## Runs and the two predicates over them -/

/-- The state a run ends in. -/
def run (step : σ → ι → σ) (s : σ) (es : List ι) : σ :=
  es.foldl step s

/-- Every step of the run satisfies the guard `R` in the state it is taken from. -/
def Along (step : σ → ι → σ) (R : σ → ι → Prop) : σ → List ι → Prop
  | _, [] => True
  | s, e :: es => R s e ∧ Along step R (step s e) es

/-- The property `P` holds in every state the run visits. -/
def Everywhere (step : σ → ι → σ) (P : σ → Prop) : σ → List ι → Prop
  | s, [] => P s
  | s, e :: es => P s ∧ Everywhere step P (step s e) es

instance decidableAlong (step : σ → ι → σ) (R : σ → ι → Prop) [∀ s e, Decidable (R s e)] :
    ∀ s es, Decidable (Along step R s es)
  | _, [] => .isTrue trivial
  | s, e :: es =>
    have := decidableAlong step R (step s e) es
    inferInstanceAs (Decidable (R s e ∧ Along step R (step s e) es))

instance decidableEverywhere (step : σ → ι → σ) (P : σ → Prop) [∀ s, Decidable (P s)] :
    ∀ s es, Decidable (Everywhere step P s es)
  | s, [] => inferInstanceAs (Decidable (P s))
  | s, e :: es =>
    have := decidableEverywhere step P (step s e) es
    inferInstanceAs (Decidable (P s ∧ Everywhere step P (step s e) es))

variable {step : σ → ι → σ} {R R' : σ → ι → Prop} {P Inv : σ → Prop}

@[simp] theorem run_nil (s : σ) : run step s [] = s := rfl

@[simp] theorem run_cons (s : σ) (e : ι) (es : List ι) :
    run step s (e :: es) = run step (step s e) es := rfl

theorem run_append (s : σ) (es fs : List ι) :
    run step s (es ++ fs) = run step (run step s es) fs :=
  List.foldl_append

/-- A guard holds along a concatenation iff it holds along both halves. -/
theorem along_append {s : σ} {es fs : List ι} :
    Along step R s (es ++ fs) ↔ Along step R s es ∧ Along step R (run step s es) fs := by
  induction es generalizing s with
  | nil => simp [Along]
  | cons e es ih => simp [Along, ih, and_assoc]

/-- A weaker guard holds along the same run. -/
theorem Along.mono {s : σ} {es : List ι} (h : Along step R s es)
    (hmono : ∀ s e, R s e → R' s e) : Along step R' s es := by
  induction es generalizing s with
  | nil => trivial
  | cons e es ih => exact ⟨hmono s e h.1, ih h.2⟩

/-- Two guards along the same run are one conjoined guard. -/
theorem along_and {s : σ} {es : List ι} :
    Along step (fun s e => R s e ∧ R' s e) s es ↔ Along step R s es ∧ Along step R' s es := by
  induction es generalizing s with
  | nil => simp [Along]
  | cons e es ih => simp only [Along, ih]; tauto

/-- A condition on the events alone holds along a run iff all its events meet it. -/
theorem along_const {s : σ} {es : List ι} {Q : ι → Prop} :
    Along step (fun _ e => Q e) s es ↔ ∀ e ∈ es, Q e := by
  induction es generalizing s with
  | nil => simp [Along]
  | cons e es ih => simp [Along, ih]

/-- Visiting every state is visiting the end of every prefix. -/
theorem everywhere_iff_prefix {s : σ} {es : List ι} :
    Everywhere step P s es ↔ ∀ pre, pre <+: es → P (run step s pre) := by
  induction es generalizing s with
  | nil => simp [Everywhere]
  | cons e es ih =>
    simp only [Everywhere, ih]
    constructor
    · rintro ⟨h0, hrest⟩ pre hpre
      cases pre with
      | nil => exact h0
      | cons e' pre =>
        obtain ⟨rfl, htail⟩ := List.cons_prefix_cons.mp hpre
        exact hrest pre htail
    · intro h
      refine ⟨h [] List.nil_prefix, fun pre hpre => ?_⟩
      exact h (e :: pre) (List.cons_prefix_cons.mpr ⟨rfl, hpre⟩)

/-- A property that holds everywhere holds at the end. -/
theorem Everywhere.last {s : σ} {es : List ι} (h : Everywhere step P s es) :
    P (run step s es) :=
  everywhere_iff_prefix.mp h es (List.prefix_refl es)

/-- A property that holds everywhere holds at the start. -/
theorem Everywhere.head {s : σ} {es : List ι} (h : Everywhere step P s es) : P s :=
  everywhere_iff_prefix.mp h [] List.nil_prefix

/-! ## Invariant rules -/

/-- An invariant kept by guarded steps holds at the end of a guarded run. -/
theorem Along.invariant {s : σ} {es : List ι} (hrun : Along step R s es) (h0 : Inv s)
    (hstep : ∀ s e, Inv s → R s e → Inv (step s e)) : Inv (run step s es) := by
  induction es generalizing s with
  | nil => exact h0
  | cons e es ih => exact ih hrun.2 (hstep s e h0 hrun.1)

/-- An invariant kept by guarded steps gives what it implies in every state visited. -/
theorem Along.everywhere {s : σ} {es : List ι} (hrun : Along step R s es) (h0 : Inv s)
    (hstep : ∀ s e, Inv s → R s e → Inv (step s e)) (himp : ∀ s, Inv s → P s) :
    Everywhere step P s es := by
  induction es generalizing s with
  | nil => exact himp s h0
  | cons e es ih => exact ⟨himp s h0, ih hrun.2 (hstep s e h0 hrun.1)⟩

/-- What an invariant and a guard imply of every step. -/
theorem Along.imp_of_invariant {s : σ} {es : List ι} (hrun : Along step R s es) (h0 : Inv s)
    (hstep : ∀ s e, Inv s → R s e → Inv (step s e)) (himp : ∀ s e, Inv s → R s e → R' s e) :
    Along step R' s es := by
  induction es generalizing s with
  | nil => trivial
  | cons e es ih => exact ⟨himp s e h0 hrun.1, ih hrun.2 (hstep s e h0 hrun.1)⟩

/-- **Counting rule**: an invariant about data that grow by one with each event that counts. -/
theorem Along.counts {α : Type*} {I : σ → α → Prop} {p : ι → Bool} (size : α → ℕ) {s : σ} {a : α}
    {es : List ι} (hrun : Along step R s es) (h0 : I s a)
    (hstep : ∀ s e a, I s a → R s e →
      ∃ a', I (step s e) a' ∧ size a' = size a + if p e then 1 else 0) :
    ∃ a', I (run step s es) a' ∧ size a' = size a + es.countP p := by
  induction es generalizing s a with
  | nil => exact ⟨a, h0, rfl⟩
  | cons e es ih =>
    obtain ⟨b, hb, hsize⟩ := hstep s e a h0 hrun.1
    obtain ⟨c, hc, hrest⟩ := ih hrun.2 hb
    refine ⟨c, hc, ?_⟩
    rw [hrest, hsize, List.countP_cons]
    omega

/-- **Exactness rule**: when guarded steps keep an invariant that implies the property, and
every possible but unguarded step from an invariant state breaks the property at once, the
property holds everywhere exactly along the guarded runs. -/
theorem everywhere_iff_along {A : σ → ι → Prop} {s : σ} {es : List ι}
    (hposs : Along step A s es) (h0 : Inv s)
    (hstep : ∀ s e, Inv s → A s e → R s e → Inv (step s e))
    (himp : ∀ s, Inv s → P s)
    (hbreak : ∀ s e, Inv s → A s e → ¬ R s e → ¬ P (step s e)) :
    Everywhere step P s es ↔ Along step R s es := by
  induction es generalizing s with
  | nil => simp [Everywhere, Along, himp s h0]
  | cons e es ih =>
    obtain ⟨he, hes⟩ := hposs
    by_cases hr : R s e
    · simp [Everywhere, Along, himp s h0, hr, ih hes (hstep s e h0 he hr)]
    · have hnot : ¬ Everywhere step P (step s e) es := fun h =>
        hbreak s e h0 he hr h.head
      simp [Everywhere, Along, hr, hnot]

/-- **Step-wise equivalence under a guard**: two guards that agree in the states of an invariant
that the first one keeps hold along the same runs. -/
theorem along_iff_of_guarded {A : σ → ι → Prop} {s : σ} {es : List ι}
    (hposs : Along step A s es) (h0 : Inv s)
    (hstep : ∀ s e, Inv s → A s e → R s e → Inv (step s e))
    (hiff : ∀ s e, Inv s → A s e → (R s e ↔ R' s e)) :
    Along step R s es ↔ Along step R' s es := by
  induction es generalizing s with
  | nil => exact Iff.rfl
  | cons e es ih =>
    obtain ⟨he, hes⟩ := hposs
    by_cases hr : R s e
    · exact and_congr (hiff s e h0 he) (ih hes (hstep s e h0 he hr))
    · have hr' : ¬ R' s e := fun h => hr ((hiff s e h0 he).mpr h)
      exact ⟨fun h => absurd h.1 hr, fun h => absurd h.1 hr'⟩

/-- **Step-wise equivalence**: two guards that agree in the states of an invariant hold along
the same runs. -/
theorem along_iff_of_invariant {A : σ → ι → Prop} {s : σ} {es : List ι}
    (hposs : Along step A s es) (h0 : Inv s) (hstep : ∀ s e, Inv s → A s e → Inv (step s e))
    (hiff : ∀ s e, Inv s → A s e → (R s e ↔ R' s e)) :
    Along step R s es ↔ Along step R' s es :=
  along_iff_of_guarded hposs h0 (fun s e h he _ => hstep s e h he) hiff

/-- An observation has its first value in every state visited iff no step changes it. -/
theorem everywhere_eq_iff_along {β : Type*} (f : σ → β) {s : σ} {es : List ι} :
    Everywhere step (fun s' => f s' = f s) s es ↔
      Along step (fun s e => f (step s e) = f s) s es := by
  induction es generalizing s with
  | nil => simp [Everywhere, Along]
  | cons e es ih =>
    simp only [Everywhere, Along, true_and]
    constructor
    · intro h
      have hfirst := h.head
      exact ⟨hfirst, ih.mp (hfirst ▸ h)⟩
    · rintro ⟨hfirst, hrest⟩
      exact hfirst ▸ ih.mpr hrest

end Cutesugar.Lib
