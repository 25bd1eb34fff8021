import Mathlib.Data.List.Basic
import Mathlib.Data.List.Infix
import Mathlib.Order.WellFounded

/-!
# Machines with a list of tasks

A machine takes the first task of a list and puts the tasks that it consists of in its place, or
fails. A program with loops and recursion is such a machine when its activations are the tasks.

- `Does`: some steps, with the tasks they were about and the states they were made in.
- `Realizes`: the machine does what a function of the program returns, with one rule for each way
  to build such a function.
- `Halts`: the machine comes to an end, with a rule for a rank of tasks and one for going on
  forever.
-/

namespace Cutesugar.Lib

variable {τ τ' σ σ' ε : Type}

/-- The tasks that are left, and the state. -/
abbrev Agenda (τ σ : Type) := List τ × σ

/-- Some steps. -/
inductive Does (step : σ → τ → Except ε (List τ × σ)) :
    Agenda τ σ → List (τ × σ) → Agenda τ σ → Prop where
  | rest (c : Agenda τ σ) : Does step c [] c
  | task {t : τ} {s s' : σ} {new rest : List τ} {visits : List (τ × σ)} {c : Agenda τ σ}
      (hstep : step s t = .ok (new, s')) (hgo : Does step (new ++ rest, s') visits c) :
      Does step (t :: rest, s) ((t, s) :: visits) c

/-- A step that fails is reached. -/
def Fails (step : σ → τ → Except ε (List τ × σ)) (c : Agenda τ σ) (e : ε) : Prop :=
  ∃ visits t rest s, Does step c visits (t :: rest, s) ∧ step s t = .error e

/-- The tasks are done, or one of them fails. -/
def Halts (step : σ → τ → Except ε (List τ × σ)) (c : Agenda τ σ) : Prop :=
  (∃ visits s, Does step c visits ([], s)) ∨ ∃ e, Fails step c e

variable {step : σ → τ → Except ε (List τ × σ)} {step' : σ' → τ' → Except ε (List τ' × σ')}
  {c c' c'' : Agenda τ σ} {u v : List (τ × σ)} {w w' new rest : List τ} {s s' : σ} {t : τ} {e : ε}

/-! ## Steps -/

theorem Does.trans (h : Does step c v c') (h' : Does step c' u c'') :
    Does step c (v ++ u) c'' := by
  induction h with
  | rest c => exact h'
  | task hstep _ ih => exact .task hstep (ih h')

/-- Tasks behind are left alone. -/
theorem Does.frame (h : Does step c v c') (rest : List τ) :
    Does step (c.1 ++ rest, c.2) v (c'.1 ++ rest, c'.2) := by
  induction h with
  | rest c => exact .rest _
  | task hstep _ ih =>
    refine .task hstep ?_
    change Does step (_ ++ (_ ++ rest), _) _ _
    rw [← List.append_assoc]
    exact ih

/-- Tasks that are done are done one after the other. -/
theorem Does.append_inv {a b : List τ} (h : Does step (a ++ b, s) v ([], s')) :
    ∃ v₁ s₁ v₂, Does step (a, s) v₁ ([], s₁) ∧ Does step (b, s₁) v₂ ([], s') ∧ v = v₁ ++ v₂ := by
  generalize hc : (a ++ b, s) = c at h
  generalize hd : (([] : List τ), s') = d at h
  induction h generalizing a s with
  | rest c =>
    obtain ⟨hnil, rfl⟩ := Prod.mk.inj (hc.trans hd.symm)
    obtain ⟨rfl, rfl⟩ := List.append_eq_nil_iff.mp hnil
    exact ⟨[], s, [], .rest _, hd ▸ .rest _, rfl⟩
  | @task t s₀ s₁ new rest visits c hstep hgo ih =>
    obtain ⟨hwork, rfl⟩ := Prod.mk.inj hc
    cases a with
    | nil =>
      obtain rfl : b = t :: rest := hwork
      exact ⟨[], s, _, .rest _, .task hstep (hd ▸ hgo), rfl⟩
    | cons t' a =>
      obtain ⟨rfl, hrest⟩ := List.cons.inj hwork
      have hsplit : ((new ++ a) ++ b, s₁) = (new ++ rest, s₁) := by
        rw [List.append_assoc]
        exact congrArg (fun x => (new ++ x, s₁)) hrest
      obtain ⟨v₁, s₂, v₂, h₁, h₂, rfl⟩ := ih hsplit hd
      exact ⟨_ :: v₁, s₂, v₂, .task hstep h₁, h₂, rfl⟩

/-- Nothing is done without a task. -/
theorem Does.of_nil (h : Does step ([], s) v c) : v = [] ∧ c = ([], s) := by
  cases h
  exact ⟨rfl, rfl⟩

theorem Does.eq_of_nil (h : Does step c [] c') : c' = c := by
  cases h
  rfl

/-- Steps in a row. -/
theorem Does.split (h : Does step c (v ++ u) c'') : ∃ c', Does step c v c' ∧ Does step c' u c'' := by
  induction v generalizing c with
  | nil => exact ⟨c, .rest c, h⟩
  | cons p v ih =>
    cases h with
    | task hstep hgo =>
      obtain ⟨c', hfirst, hthen⟩ := ih hgo
      exact ⟨c', .task hstep hfirst, hthen⟩

/-- The machine is deterministic: the longer of two runs goes on from the end of the shorter. -/
theorem Does.extends (h : Does step c v c') (h' : Does step c u c'') (hle : v.length ≤ u.length) :
    ∃ x, u = v ++ x ∧ Does step c' x c'' := by
  induction h generalizing u with
  | rest c => exact ⟨u, rfl, h'⟩
  | task hstep _ ih =>
    cases h' with
    | rest => exact absurd hle (by simp)
    | task hstep' hgo =>
      obtain ⟨rfl, rfl⟩ := Prod.mk.inj (Except.ok.inj (hstep.symm.trans hstep'))
      obtain ⟨x, rfl, hx⟩ := ih hgo (Nat.le_of_succ_le_succ hle)
      exact ⟨x, rfl, hx⟩

/-- No run is longer than one that is done. -/
theorem Does.length_le (h : Does step c v ([], s)) (h' : Does step c u c') :
    u.length ≤ v.length := by
  by_contra hlt
  obtain ⟨x, rfl, hx⟩ := h.extends h' (by omega)
  rw [hx.of_nil.1, List.append_nil] at hlt
  omega

/-- Runs that are done are the same. -/
theorem Does.unique (h : Does step c v ([], s)) (h' : Does step c u ([], s')) :
    v = u ∧ s = s' := by
  obtain ⟨x, rfl, hx⟩ := h.extends h' (h'.length_le h)
  obtain ⟨rfl, hend⟩ := hx.of_nil
  exact ⟨(List.append_nil v).symm, (congrArg Prod.snd hend).symm⟩

/-- A visit is a step that the run comes to and goes on from. -/
theorem Does.of_mem (h : Does step c v c') {p : τ × σ} (hp : p ∈ v) :
    ∃ u x rest new s', Does step c u (p.1 :: rest, p.2) ∧ step p.2 p.1 = .ok (new, s') ∧
      Does step (new ++ rest, s') x c' := by
  obtain ⟨u, x, rfl⟩ := List.append_of_mem hp
  obtain ⟨d, hd, hrest⟩ := h.split
  cases hrest with
  | task hstep hgo => exact ⟨u, x, _, _, _, hd, hstep, hgo⟩

/-- Every task of a run that is done is visited. -/
theorem Does.visits_tasks (h : Does step c v ([], s')) : ∀ t ∈ c.1, ∃ s₁, (t, s₁) ∈ v := by
  generalize hd : (([] : List τ), s') = d at h
  induction h with
  | rest c =>
    intro t ht
    exact absurd (congrArg Prod.fst hd ▸ ht) List.not_mem_nil
  | @task t₀ s₀ s₁ new rest visits c hstep hgo ih =>
    intro t ht
    rcases List.mem_cons.mp ht with rfl | ht
    · exact ⟨s₀, List.mem_cons_self ..⟩
    · obtain ⟨s₂, hmem⟩ := ih hd t (List.mem_append_right _ ht)
      exact ⟨s₂, List.mem_cons_of_mem _ hmem⟩

/-- What a visited task consists of is visited too. -/
theorem Does.visits_new (h : Does step c v ([], s')) {p : τ × σ} (hp : p ∈ v) :
    ∃ new s₁, step p.2 p.1 = .ok (new, s₁) ∧ ∀ t ∈ new, ∃ s₂, (t, s₂) ∈ v := by
  generalize hd : (([] : List τ), s') = d at h
  induction h with
  | rest c => exact absurd hp List.not_mem_nil
  | @task t₀ s₀ s₁ new rest visits c hstep hgo ih =>
    rcases List.mem_cons.mp hp with rfl | hp
    · refine ⟨new, s₁, hstep, fun t ht => ?_⟩
      obtain ⟨s₂, hmem⟩ := (hd ▸ hgo).visits_tasks t (List.mem_append_left _ ht)
      exact ⟨s₂, List.mem_cons_of_mem _ hmem⟩
    · obtain ⟨new', s₂, hstep', hnew⟩ := ih hp hd
      refine ⟨new', s₂, hstep', fun t ht => ?_⟩
      obtain ⟨s₃, hmem⟩ := hnew t ht
      exact ⟨s₃, List.mem_cons_of_mem _ hmem⟩

/-- The first `n` steps. -/
def advance (step : σ → τ → Except ε (List τ × σ)) : ℕ → Agenda τ σ → Except ε (Agenda τ σ)
  | 0, c => .ok c
  | _ + 1, ([], s) => .ok ([], s)
  | n + 1, (t :: rest, s) =>
    match step s t with
    | .ok (new, s') => advance step n (new ++ rest, s')
    | .error e => .error e

theorem does_of_advance {n : ℕ} (h : advance step n c = .ok c') : ∃ v, Does step c v c' := by
  induction n generalizing c with
  | zero =>
    obtain rfl := Except.ok.inj h
    exact ⟨[], .rest c⟩
  | succ n ih =>
    obtain ⟨tasks, s⟩ := c
    cases tasks with
    | nil =>
      obtain rfl := Except.ok.inj h
      exact ⟨[], .rest _⟩
    | cons t rest =>
      simp only [advance] at h
      split at h
      · obtain ⟨v, hv⟩ := ih h
        exact ⟨(t, s) :: v, .task ‹_› hv⟩
      · exact absurd h (by simp)

/-- **Invariants** of tasks and states. -/
theorem Does.invariant (h : Does step c v c') {I : τ → Prop} {J : σ → Prop}
    (hstep : ∀ t s new s', (t, s) ∈ v → I t → J s → step s t = .ok (new, s') →
      (∀ x ∈ new, I x) ∧ J s')
    (hI : ∀ t ∈ c.1, I t) (hJ : J c.2) :
    (∀ t ∈ c'.1, I t) ∧ J c'.2 ∧ ∀ p ∈ v, I p.1 ∧ J p.2 := by
  induction h with
  | rest c => exact ⟨hI, hJ, fun p hp => absurd hp List.not_mem_nil⟩
  | @task t s s' new rest visits c hfirst _ ih =>
    have ht : I t := hI t (List.mem_cons_self ..)
    obtain ⟨hnew, hs'⟩ := hstep _ _ _ _ (List.mem_cons_self ..) ht hJ hfirst
    have htasks : ∀ x ∈ new ++ rest, I x := by
      intro x hx
      rcases List.mem_append.mp hx with hx | hx
      · exact hnew x hx
      · exact hI x (List.mem_cons_of_mem _ hx)
    obtain ⟨hend, hstate, hvisits⟩ :=
      ih (fun t s new s' hmem => hstep t s new s' (List.mem_cons_of_mem _ hmem)) htasks hs'
    refine ⟨hend, hstate, fun p hp => ?_⟩
    rcases List.mem_cons.mp hp with rfl | hp
    · exact ⟨ht, hJ⟩
    · exact hvisits p hp

/-- **Simulation**: a machine whose steps are, in states that keep an invariant, steps of another
one on its view of tasks and states. -/
theorem Does.map (h : Does step c v c') (g : τ → τ') (f : σ → σ') {J : σ → Prop}
    (hstep : ∀ t s new s', J s → step s t = .ok (new, s') →
      step' (f s) (g t) = .ok (new.map g, f s') ∧ J s') (hJ : J c.2) :
    Does step' (c.1.map g, f c.2) (v.map (Prod.map g f)) (c'.1.map g, f c'.2) := by
  induction h with
  | rest c => exact .rest _
  | task hfirst _ ih =>
    obtain ⟨hfirst', hJ'⟩ := hstep _ _ _ _ hJ hfirst
    refine .task hfirst' ?_
    rw [← List.map_append]
    exact ih hJ'

/-! ## Failures -/

theorem Fails.trans (h : Does step c v c') (h' : Fails step c' e) : Fails step c e := by
  obtain ⟨u, t, rest, s, hdoes, hfail⟩ := h'
  exact ⟨v ++ u, t, rest, s, h.trans hdoes, hfail⟩

theorem Fails.frame (h : Fails step c e) (rest : List τ) : Fails step (c.1 ++ rest, c.2) e := by
  obtain ⟨u, t, rest', s, hdoes, hfail⟩ := h
  exact ⟨u, t, rest' ++ rest, s, hdoes.frame rest, hfail⟩

/-- Behind a failure nothing is done. -/
theorem Does.length_le_of_fails {u : List (τ × σ)} (h : Does step c v c')
    (hfail : Does step c u (t :: rest, s)) (he : step s t = .error e) : v.length ≤ u.length := by
  by_contra hlt
  obtain ⟨x, rfl, hx⟩ := hfail.extends h (by omega)
  cases hx with
  | rest => exact hlt (by simp)
  | task hstep _ => exact absurd (he.symm.trans hstep) (by simp)

/-- There is one end. -/
theorem Fails.not_done (h : Fails step c e) : ¬ Does step c v ([], s) := by
  obtain ⟨u, t, rest, s', hdoes, hfail⟩ := h
  intro hdone
  obtain ⟨x, rfl, hx⟩ := hdone.extends hdoes (by
    by_contra hlt
    have := hdone.length_le_of_fails hdoes hfail
    omega)
  exact absurd (congrArg Prod.fst hx.of_nil.2) (by simp)

theorem Fails.unique {e' : ε} (h : Fails step c e) (h' : Fails step c e') : e = e' := by
  obtain ⟨u, t, rest, s, hdoes, hfail⟩ := h
  obtain ⟨u', t', rest', s', hdoes', hfail'⟩ := h'
  have hle := hdoes.length_le_of_fails hdoes' hfail'
  obtain ⟨x, rfl, hx⟩ := hdoes.extends hdoes' hle
  cases hx with
  | rest => exact Except.error.inj (hfail.symm.trans hfail')
  | task hstep _ => exact absurd (hfail.symm.trans hstep) (by simp)

/-! ## Functions -/

/-- The machine does the tasks as the function returns: with the same state, or the same fault.
Where a bound of the function runs out, which is the fault `stuck`, the machine may go on, for at
least `k` steps. -/
def Realizes (step : σ → τ → Except ε (List τ × σ)) (stuck : ε) (k : ℕ) (w : List τ) (s : σ) :
    Except ε σ → Prop
  | .ok s' => ∃ v, Does step (w, s) v ([], s')
  | .error e => Fails step (w, s) e ∨
      e = stuck ∧ ∃ v c, Does step (w, s) v c ∧ k ≤ v.length

variable {stuck : ε} {k k' : ℕ} {r : Except ε σ} {f : σ → Except ε σ}

theorem Realizes.nil : Realizes step stuck k [] s (.ok s) := ⟨[], .rest _⟩

theorem Realizes.weaken (h : Realizes step stuck k w s r) (hle : k' ≤ k) :
    Realizes step stuck k' w s r := by
  cases r with
  | ok s' => exact h
  | error e =>
    refine h.imp id ?_
    rintro ⟨he, v, c, hdoes, hk⟩
    exact ⟨he, v, c, hdoes, hle.trans hk⟩

/-- A bound that has run out. -/
theorem Realizes.out : Realizes step stuck 0 w s (.error stuck) :=
  .inr ⟨rfl, [], _, .rest _, Nat.zero_le _⟩

theorem Realizes.fail (h : step s t = .error e) : Realizes step stuck k [t] s (.error e) :=
  .inl ⟨[], t, [], s, .rest _, h⟩

/-- A task is done as those it consists of. -/
theorem Realizes.task (h : step s t = .ok (new, s')) (hnew : Realizes step stuck k new s' r) :
    Realizes step stuck (k + 1) [t] s r := by
  have hgo {u : List (τ × σ)} {c : Agenda τ σ} (hu : Does step (new, s') u c) :
      Does step ([t], s) ((t, s) :: u) c := by
    refine .task h ?_
    rw [List.append_nil]
    exact hu
  cases r with
  | ok s'' =>
    obtain ⟨u, hu⟩ := hnew
    exact ⟨_, hgo hu⟩
  | error e =>
    rcases hnew with hfail | ⟨he, u, c, hu, hk⟩
    · obtain ⟨u, x, rest, s'', hu, hx⟩ := hfail
      exact .inl ⟨_, x, rest, s'', hgo hu, hx⟩
    · exact .inr ⟨he, _, c, hgo hu, Nat.succ_le_succ hk⟩

/-- **Sequences**. -/
theorem Realizes.append (h : Realizes step stuck k w s r)
    (h' : ∀ s', r = .ok s' → Realizes step stuck k w' s' (f s')) :
    Realizes step stuck k (w ++ w') s (r >>= f) := by
  cases r with
  | error e =>
    rcases h with hfail | ⟨he, v, c, hdoes, hk⟩
    · exact .inl (hfail.frame w')
    · exact .inr ⟨he, v, _, hdoes.frame w', hk⟩
  | ok s' =>
    obtain ⟨v, hdoes⟩ := h
    have hfirst : Does step (w ++ w', s) v (w', s') := hdoes.frame w'
    have hthen := h' s' rfl
    have hbind : (Except.ok s' >>= f : Except ε σ) = f s' := rfl
    rw [hbind]
    revert hthen
    cases f s' with
    | ok s'' =>
      rintro ⟨u, hu⟩
      exact ⟨v ++ u, hfirst.trans hu⟩
    | error e =>
      rintro (hfail | ⟨he, u, c, hu, hk⟩)
      · exact .inl (hfail.trans hfirst)
      · refine .inr ⟨he, v ++ u, c, hfirst.trans hu, ?_⟩
        rw [List.length_append]
        omega

/-- **Loops** over a list. -/
theorem Realizes.foldlM {α : Type} {g : α → τ} {body : σ → α → Except ε σ} {l : List α}
    (h : ∀ a ∈ l, ∀ s, Realizes step stuck k [g a] s (body s a)) :
    Realizes step stuck k (l.map g) s (l.foldlM body s) := by
  induction l generalizing s with
  | nil => exact .nil
  | cons a l ih =>
    rw [List.foldlM_cons, List.map_cons]
    apply Realizes.append (w := [g a]) (h a (List.mem_cons_self ..) s)
    exact fun s' _ => ih fun b hb => h b (List.mem_cons_of_mem _ hb)

/-! ## Ends -/

/-- A machine that has come to an end was on its way for some number of steps. -/
theorem Halts.bound (h : Halts step c) : ∃ n, ∀ v c', Does step c v c' → v.length ≤ n := by
  rcases h with ⟨u, s, hdone⟩ | ⟨e, u, t, rest, s, hdoes, hfail⟩
  · refine ⟨u.length, fun v c' hv => ?_⟩
    by_contra hlt
    obtain ⟨x, rfl, hx⟩ := hdone.extends hv (by omega)
    rw [hx.of_nil.1] at hlt
    exact hlt (by simp)
  · exact ⟨u.length, fun v c' hv => hv.length_le_of_fails hdoes hfail⟩

/-- A machine that always goes on does not halt. -/
theorem not_halts_of_forever {P : Agenda τ σ → Prop} (hc : P c)
    (h : ∀ c, P c → ∃ v c', v ≠ [] ∧ Does step c v c' ∧ P c') : ¬ Halts step c := by
  intro hhalts
  obtain ⟨n, hn⟩ := hhalts.bound
  have hlong (k : ℕ) : ∃ v c', Does step c v c' ∧ k ≤ v.length ∧ P c' := by
    induction k with
    | zero => exact ⟨[], c, .rest c, Nat.zero_le _, hc⟩
    | succ k ih =>
      obtain ⟨v, c', hv, hk, hP⟩ := ih
      obtain ⟨u, c'', hu, hdoes, hP'⟩ := h c' hP
      refine ⟨v ++ u, c'', hv.trans hdoes, ?_, hP'⟩
      have hpos : 0 < u.length := List.length_pos_of_ne_nil hu
      rw [List.length_append]
      omega
  obtain ⟨v, c', hv, hk, -⟩ := hlong (n + 1)
  have := hn v c' hv
  omega

theorem Halts.trans (h : Does step c v c') (h' : Halts step c') : Halts step c := by
  rcases h' with ⟨u, s, hu⟩ | ⟨e, hfail⟩
  · exact .inl ⟨v ++ u, s, h.trans hu⟩
  · exact .inr ⟨e, hfail.trans h⟩

/-- What a machine that halts gets to halts. -/
theorem Halts.after (h : Halts step c) (hv : Does step c v c') : Halts step c' := by
  rcases h with ⟨u, s, hdone⟩ | ⟨e, u, t, rest, s, hdoes, hfail⟩
  · by_cases hle : v.length ≤ u.length
    · obtain ⟨x, rfl, hx⟩ := hv.extends hdone hle
      exact .inl ⟨x, s, hx⟩
    · -- behind the end there is nothing
      obtain ⟨x, rfl, hx⟩ := hdone.extends hv (by omega)
      rw [hx.of_nil.2]
      exact .inl ⟨[], s, .rest _⟩
  · obtain ⟨x, rfl, hx⟩ := hv.extends hdoes (hv.length_le_of_fails hdoes hfail)
    exact .inr ⟨e, x, t, rest, s, hx, hfail⟩

/-- The first task comes to an end, and what is left then too. -/
theorem Halts.cons (h : Halts step ([t], s))
    (h' : ∀ v s', Does step ([t], s) v ([], s') → Halts step (rest, s')) :
    Halts step (t :: rest, s) := by
  rcases h with ⟨v, s', hdone⟩ | ⟨e, hfail⟩
  · exact .trans (hdone.frame rest) (h' v s' hdone)
  · exact .inr ⟨e, hfail.frame rest⟩

/-- **Ranks**: a machine whose visits are to tasks that consist of tasks of smaller rank halts. -/
theorem halts_of_rank {r : τ → τ → Prop} (hr : WellFounded r) {G : τ × σ → Prop}
    (hrank : ∀ t s new s', G (t, s) → step s t = .ok (new, s') → ∀ x ∈ new, r x t)
    (hG : ∀ v c', Does step (w, s) v c' → ∀ p ∈ v, G p) : Halts step (w, s) := by
  -- a list of tasks that halt one by one
  have hlist {w : List τ} (htask : ∀ t ∈ w, ∀ s, (∀ v c', Does step ([t], s) v c' → ∀ p ∈ v, G p) →
      Halts step ([t], s)) : ∀ s, (∀ v c', Does step (w, s) v c' → ∀ p ∈ v, G p) →
      Halts step (w, s) := by
    induction w with
    | nil => exact fun s _ => .inl ⟨[], s, .rest _⟩
    | cons t rest ih =>
      intro s hG
      have hfirst := htask t (List.mem_cons_self ..) s fun v c' hv => hG v _ (hv.frame rest)
      refine hfirst.cons fun v s' hdone => ?_
      refine ih (fun x hx => htask x (List.mem_cons_of_mem _ hx)) s' fun u c' hu p hp => ?_
      exact hG (v ++ u) c' ((hdone.frame rest).trans hu) p (List.mem_append_right v hp)
  have htask (t : τ) : ∀ s, (∀ v c', Does step ([t], s) v c' → ∀ p ∈ v, G p) →
      Halts step ([t], s) := by
    induction t using hr.induction with
    | _ t ih =>
      intro s hG
      cases hstep : step s t with
      | error e => exact .inr ⟨e, [], t, [], s, .rest _, hstep⟩
      | ok result =>
        obtain ⟨new, s'⟩ := result
        have hfirst : Does step ([t], s) [(t, s)] (new ++ [], s') := .task hstep (.rest _)
        rw [List.append_nil] at hfirst
        have hsmall := hrank t s new s' (hG _ _ hfirst _ (List.mem_cons_self ..)) hstep
        refine .trans hfirst (hlist (fun x hx => ih x (hsmall x hx)) s' fun u c' hu p hp => ?_)
        exact hG _ c' (hfirst.trans hu) p (List.mem_append_right _ hp)
  exact hlist (fun t _ => htask t) s hG

end Cutesugar.Lib
