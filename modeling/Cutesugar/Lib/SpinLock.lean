import Cutesugar.Lib.Run
import Mathlib.Logic.Function.Basic

/-!
# Sections under a spin lock

Any number of processors run one section of code under one lock. The lock is read until it is free and then
exchanged, and the exchange may find it taken again. A processor has its interrupts disabled from before it
asks for the lock until it has given it back, and a section is begun by an interrupt.

- `System.step`: an interrupt, or one access of a processor to the lock or to the shared data.
- `LockInv`: what holds in every state, with `LockInv.step` and `LockInv.run`.
- `LockInv.unique`, `LockInv.masked`: one processor is inside, and no interrupt comes there.
- `LockInv.exists_inside`: a processor that waits can get inside.
-/

namespace Cutesugar.Lib.SpinLock

variable {κ σ τ : Type*}

/-! ## Sections -/

/-- What is checked before the lock is asked for, and what is done under it. Each is one access to the shared
data, with what the processor has to itself. -/
structure Section (σ τ : Type*) where
  checks : List (σ → τ → Bool)
  ops : List (σ × τ → σ × τ)

/-- Where a processor is, with what is left to check or to do. -/
inductive Phase (σ τ : Type*) where
  | outside
  | checking (rest : List (σ → τ → Bool)) (own : τ)
  | waiting (own : τ)
  | seenFree (own : τ)
  | inside (rest : List (σ × τ → σ × τ)) (own : τ)
  | leaving

/-- The processor has the lock. -/
def Phase.Inside : Phase σ τ → Prop
  | .inside _ _ => True
  | _ => False

/-- The lock, the shared data and the processors. `taken` are the sections whose lock was taken, in that order,
with what each started from, and `ended` what those have come to that are done. -/
structure System (κ σ τ : Type*) where
  lock : Bool
  data : σ
  enabled : κ → Bool
  phase : κ → Phase σ τ
  taken : List (κ × τ)
  ended : List (κ × τ)

inductive Event (κ τ : Type*) where
  | interrupt (p : κ) (own : τ)
  | step (p : κ)

/-- Nobody has asked for the lock yet. -/
def System.start (data : σ) (enabled : κ → Bool) : System κ σ τ where
  lock := false
  data := data
  enabled := enabled
  phase _ := .outside
  taken := []
  ended := []

section

variable [DecidableEq κ]

abbrev System.move (s : System κ σ τ) (p : κ) (phase : Phase σ τ) : System κ σ τ :=
  { s with phase := Function.update s.phase p phase }

/-- The next access of a processor. -/
def System.advance (S : Section σ τ) (s : System κ σ τ) (p : κ) : System κ σ τ :=
  match s.phase p with
  | .outside => s
  | .checking (check :: rest) own =>
    if check s.data own then s.move p (.checking rest own)
    -- the return from the interrupt enables interrupts again
    else { s.move p .outside with enabled := Function.update s.enabled p true }
  | .checking [] own => { s.move p (.waiting own) with enabled := Function.update s.enabled p false }
  | .waiting own => if s.lock then s else s.move p (.seenFree own)
  | .seenFree own =>
    -- an exchange that finds the lock taken leaves it so
    if s.lock then s.move p (.waiting own)
    else { s.move p (.inside S.ops own) with lock := true, taken := s.taken ++ [(p, own)] }
  | .inside (op :: rest) own =>
    { s.move p (.inside rest (op (s.data, own)).2) with data := (op (s.data, own)).1 }
  | .inside [] own => { s.move p .leaving with lock := false, ended := s.ended ++ [(p, own)] }
  | .leaving => { s.move p .outside with enabled := Function.update s.enabled p true }

/-- An interrupt that comes while interrupts are disabled does nothing yet. -/
def System.step (S : Section σ τ) (s : System κ σ τ) : Event κ τ → System κ σ τ
  | .interrupt p own =>
    if s.enabled p then
      { s.move p (.checking S.checks own) with enabled := Function.update s.enabled p false }
    else s
  | .step p => s.advance S p

end

/-! ## Sections one at a time -/

/-- What is done under the lock. -/
def perform (ops : List (σ × τ → σ × τ)) (x : σ × τ) : σ × τ := ops.foldl (fun x op => op x) x

/-- One whole section, behind others. -/
def Section.call (S : Section σ τ) (x : σ × List (κ × τ)) (c : κ × τ) : σ × List (κ × τ) :=
  ((perform S.ops (x.1, c.2)).1, x.2 ++ [(c.1, (perform S.ops (x.1, c.2)).2)])

/-- Sections one at a time: the data they leave, and what each came to. -/
def Section.serial (S : Section σ τ) (data : σ) (calls : List (κ × τ)) : σ × List (κ × τ) :=
  calls.foldl S.call (data, [])

theorem Section.serial_append (S : Section σ τ) (data : σ) (calls : List (κ × τ)) (c : κ × τ) :
    S.serial data (calls ++ [c]) = S.call (S.serial data calls) c := by
  rw [Section.serial, List.foldl_append]
  rfl

/-! ## The invariant -/

/-- What the data and the results will be when the processor that has the lock is done, if one has it. -/
inductive Completion (s : System κ σ τ) : σ × List (κ × τ) → Prop
  | free (hlock : s.lock = false) (hnone : ∀ p, ¬ (s.phase p).Inside) : Completion s (s.data, s.ended)
  | held {p : κ} {rest : List (σ × τ → σ × τ)} {own : τ} (hlock : s.lock = true)
      (hinside : s.phase p = .inside rest own) (honly : ∀ q, (s.phase q).Inside → q = p) :
      Completion s ((perform rest (s.data, own)).1, s.ended ++ [(p, (perform rest (s.data, own)).2)])

/-- Interrupts are disabled in a section, and the sections whose lock was taken come to what they come to one
at a time. -/
structure LockInv (S : Section σ τ) (data : σ) (s : System κ σ τ) : Prop where
  masked : ∀ p, s.phase p ≠ .outside → s.enabled p = false
  completion : Completion s (S.serial data s.taken)

variable {S : Section σ τ} {data : σ} {s : System κ σ τ} {p q : κ} {own : τ} {x : σ × List (κ × τ)}

theorem LockInv.start (enabled : κ → Bool) : LockInv S data (System.start data enabled : System κ σ τ) where
  masked _ h := absurd rfl h
  completion := .free rfl fun _ h => h

/-- **Mutual exclusion.** -/
theorem LockInv.unique (h : LockInv S data s) (hp : (s.phase p).Inside) (hq : (s.phase q).Inside) : p = q := by
  have hcompletion := h.completion
  generalize S.serial data s.taken = x at hcompletion
  cases hcompletion with
  | free _ hnone => exact absurd hp (hnone p)
  | held _ _ honly => exact (honly p hp).trans (honly q hq).symm

/-- The lock says whether a processor has it. -/
theorem LockInv.lock_iff (h : LockInv S data s) : s.lock = true ↔ ∃ p, (s.phase p).Inside := by
  have hcompletion := h.completion
  generalize S.serial data s.taken = x at hcompletion
  cases hcompletion with
  | free hlock hnone =>
    apply iff_of_false
    · exact fun h => Bool.false_ne_true (hlock.symm.trans h)
    · rintro ⟨p, hp⟩
      exact hnone p hp
  | @held p _ _ hlock hinside _ =>
    refine iff_of_true hlock ⟨p, ?_⟩
    rw [hinside]
    trivial

/-- The results so far are those of the first sections, one at a time. -/
theorem LockInv.ended_initial (h : LockInv S data s) : s.ended <+: (S.serial data s.taken).2 := by
  have hcompletion := h.completion
  generalize S.serial data s.taken = x at hcompletion ⊢
  cases hcompletion with
  | free _ _ => exact List.prefix_rfl
  | held _ _ _ => exact List.prefix_append ..

/-- While nobody has the lock, the data are those of the sections one at a time. -/
theorem LockInv.of_free (h : LockInv S data s) (hlock : s.lock = false) :
    S.serial data s.taken = (s.data, s.ended) := by
  have hcompletion := h.completion
  generalize S.serial data s.taken = x at hcompletion ⊢
  cases hcompletion with
  | free _ _ => rfl
  | held hheld _ _ => exact absurd (hlock.symm.trans hheld) Bool.false_ne_true

/-! ## Steps -/

section

variable [DecidableEq κ]

theorem inside_of_update {phase : Phase σ τ} (hne : q ≠ p)
    (h : (Function.update s.phase p phase q).Inside) : (s.phase q).Inside := by
  rwa [Function.update_of_ne hne] at h

/-- A processor that is neither inside before nor after changes nothing for the others. -/
theorem Completion.move {phase : Phase σ τ} {s' : System κ σ τ} (h : Completion s x)
    (hbefore : ¬ (s.phase p).Inside) (hafter : ¬ phase.Inside) (hlock : s'.lock = s.lock)
    (hdata : s'.data = s.data) (hended : s'.ended = s.ended)
    (hphase : s'.phase = Function.update s.phase p phase) : Completion s' x := by
  have hinside : ∀ q, (s'.phase q).Inside → (s.phase q).Inside := by
    intro q hq
    rw [hphase] at hq
    rcases eq_or_ne q p with rfl | hne
    · rw [Function.update_self] at hq
      exact absurd hq hafter
    · exact inside_of_update hne hq
  cases h with
  | free hfree hnone =>
    rw [← hdata, ← hended]
    exact .free (hlock.trans hfree) fun q hq => hnone q (hinside q hq)
  | @held r rest own hheld hholder honly =>
    have hne : r ≠ p := by
      rintro rfl
      rw [hholder] at hbefore
      exact hbefore trivial
    rw [← hdata, ← hended]
    refine .held (hlock.trans hheld) ?_ fun q hq => honly q (hinside q hq)
    rw [hphase, Function.update_of_ne hne, hholder]

/-- Interrupts stay disabled where a phase changes and they are disabled with it. -/
theorem LockInv.masked_move (h : LockInv S data s) {phase : Phase σ τ} {enabled : κ → Bool}
    (henabled : ∀ q, q ≠ p → enabled q = s.enabled q) (hp : phase ≠ .outside → enabled p = false) :
    ∀ q, Function.update s.phase p phase q ≠ .outside → enabled q = false := by
  intro q hq
  rcases eq_or_ne q p with rfl | hne
  · rw [Function.update_self] at hq
    exact hp hq
  · rw [Function.update_of_ne hne] at hq
    rw [henabled q hne]
    exact h.masked q hq

/-- Steps outside of the lock keep the invariant. -/
theorem LockInv.move (h : LockInv S data s) {phase : Phase σ τ} {s' : System κ σ τ}
    (hbefore : ¬ (s.phase p).Inside) (hafter : ¬ phase.Inside) (hlock : s'.lock = s.lock)
    (hdata : s'.data = s.data) (htaken : s'.taken = s.taken) (hended : s'.ended = s.ended)
    (hphase : s'.phase = Function.update s.phase p phase)
    (henabled : ∀ q, q ≠ p → s'.enabled q = s.enabled q)
    (hp : phase ≠ .outside → s'.enabled p = false) : LockInv S data s' where
  masked := by
    rw [hphase]
    exact h.masked_move henabled hp
  completion := by
    rw [htaken]
    exact h.completion.move hbefore hafter hlock hdata hended hphase

/-- **Taking the lock**: the data to come are those of one more section. -/
theorem LockInv.take (h : LockInv S data s) (hlock : s.lock = false) (henabled : s.enabled p = false) :
    LockInv S data
      { s.move p (.inside S.ops own) with lock := true, taken := s.taken ++ [(p, own)] } where
  masked := h.masked_move (fun _ _ => rfl) fun _ => henabled
  completion := by
    have hfree := h.lock_iff.not.mp (by rw [hlock]; exact Bool.false_ne_true)
    rw [Section.serial_append, h.of_free hlock]
    refine .held rfl (Function.update_self ..) fun q hq => ?_
    by_contra hne
    exact hfree ⟨q, inside_of_update hne hq⟩

/-- **A step under the lock** leaves what is to come the same. -/
theorem LockInv.op (h : LockInv S data s) {op : σ × τ → σ × τ} {rest : List (σ × τ → σ × τ)}
    (hp : s.phase p = .inside (op :: rest) own) :
    LockInv S data
      { s.move p (.inside rest (op (s.data, own)).2) with data := (op (s.data, own)).1 } where
  masked := h.masked_move (fun _ _ => rfl) fun _ => h.masked p (by rw [hp]; exact fun h => nomatch h)
  completion := by
    have hinside : (s.phase p).Inside := by
      rw [hp]
      trivial
    have hcompletion := h.completion
    generalize S.serial data s.taken = x at hcompletion
    cases hcompletion with
    | free _ hnone => exact absurd hinside (hnone p)
    | @held r rest' own' hlock hholder honly =>
      obtain rfl := honly p hinside
      obtain ⟨rfl, rfl⟩ := Phase.inside.inj (hp.symm.trans hholder)
      refine .held (s := { s.move p _ with data := _ }) hlock (Function.update_self ..) fun q hq => ?_
      by_contra hne
      exact hne (honly q (inside_of_update hne hq))

/-- **Giving the lock back.** -/
theorem LockInv.release (h : LockInv S data s) (hp : s.phase p = .inside [] own) :
    LockInv S data { s.move p .leaving with lock := false, ended := s.ended ++ [(p, own)] } where
  masked := h.masked_move (fun _ _ => rfl) fun _ => h.masked p (by rw [hp]; exact fun h => nomatch h)
  completion := by
    have hinside : (s.phase p).Inside := by
      rw [hp]
      trivial
    have hcompletion := h.completion
    generalize S.serial data s.taken = x at hcompletion
    cases hcompletion with
    | free _ hnone => exact absurd hinside (hnone p)
    | @held r rest' own' hlock hholder honly =>
      obtain rfl := honly p hinside
      obtain ⟨rfl, rfl⟩ := Phase.inside.inj (hp.symm.trans hholder)
      refine .free (s := { s.move p .leaving with lock := false, ended := _ }) rfl fun q hq => ?_
      rcases eq_or_ne q p with rfl | hne
      · have hleaving : (Function.update s.phase q .leaving q).Inside := hq
        rwa [Function.update_self] at hleaving
      · exact hne (honly q (inside_of_update hne hq))

theorem LockInv.advance (h : LockInv S data s) (p : κ) : LockInv S data (s.advance S p) := by
  have hmasked := h.masked p
  have hother (v : Bool) (q : κ) (hne : q ≠ p) : Function.update s.enabled p v q = s.enabled q :=
    Function.update_of_ne hne ..
  -- only taking the lock, an operation under it and its release change more than the own phase
  unfold System.advance
  split
  · exact h
  case h_2 check rest own hp =>
    have hbefore : ¬ (s.phase p).Inside := by
      rw [hp]
      exact id
    split
    · exact h.move hbefore id rfl rfl rfl rfl rfl (fun _ _ => rfl) fun _ => hmasked (by simp [hp])
    · exact h.move hbefore id rfl rfl rfl rfl rfl (hother true) fun hne => absurd rfl hne
  case h_3 own hp =>
    have hbefore : ¬ (s.phase p).Inside := by
      rw [hp]
      exact id
    exact h.move hbefore id rfl rfl rfl rfl rfl (hother false) fun _ => Function.update_self ..
  case h_4 own hp =>
    have hbefore : ¬ (s.phase p).Inside := by
      rw [hp]
      exact id
    split
    · exact h
    · exact h.move hbefore id rfl rfl rfl rfl rfl (fun _ _ => rfl) fun _ => hmasked (by simp [hp])
  case h_5 own hp =>
    have hbefore : ¬ (s.phase p).Inside := by
      rw [hp]
      exact id
    split
    · exact h.move hbefore id rfl rfl rfl rfl rfl (fun _ _ => rfl) fun _ => hmasked (by simp [hp])
    · exact h.take (Bool.eq_false_iff.mpr ‹_›) (hmasked (by simp [hp]))
  case h_6 op rest own hp => exact h.op hp
  case h_7 own hp => exact h.release hp
  case h_8 hp =>
    have hbefore : ¬ (s.phase p).Inside := by
      rw [hp]
      exact id
    exact h.move hbefore id rfl rfl rfl rfl rfl (hother true) fun hne => absurd rfl hne

/-- **Step lemma.** -/
theorem LockInv.step (h : LockInv S data s) (e : Event κ τ) : LockInv S data (s.step S e) := by
  cases e with
  | step p => exact h.advance p
  | interrupt p own =>
    by_cases henabled : s.enabled p = true
    · -- a processor whose interrupts are enabled is outside
      have hout : s.phase p = .outside := by
        by_contra hne
        exact Bool.false_ne_true ((h.masked p hne).symm.trans henabled)
      have hbefore : ¬ (s.phase p).Inside := by
        rw [hout]
        exact id
      rw [System.step, if_pos henabled]
      exact h.move hbefore id rfl rfl rfl rfl rfl (fun q hne => Function.update_of_ne hne ..)
        fun _ => Function.update_self ..
    · rw [System.step, if_neg henabled]
      exact h

/-- **Run lemma.** -/
theorem LockInv.run (h : LockInv S data s) (es : List (Event κ τ)) :
    LockInv S data (Lib.run (System.step S) s es) := by
  have halong : Along (System.step S) (fun _ _ => True) s es := along_const.mpr fun _ _ => trivial
  exact halong.invariant h fun s e h _ => h.step e

/-! ## Progress -/

/-- The processor that has the lock gives it back. -/
theorem LockInv.exists_free (h : LockInv S data s) :
    ∃ ps : List κ, (Lib.run (System.step S) s (ps.map Event.step)).lock = false ∧
      ∀ q, ¬ (s.phase q).Inside →
        (Lib.run (System.step S) s (ps.map Event.step)).phase q = s.phase q := by
  rcases hlock : s.lock with _ | _
  · exact ⟨[], hlock, fun _ _ => rfl⟩
  obtain ⟨p, hp⟩ := h.lock_iff.mp hlock
  obtain ⟨rest, own, hinside⟩ : ∃ rest own, s.phase p = .inside rest own := by
    cases hphase : s.phase p with
    | inside rest own => exact ⟨rest, own, rfl⟩
    | _ =>
      rw [hphase] at hp
      exact hp.elim
  clear hp
  -- one step for each of the operations that are left
  induction rest generalizing s own with
  | nil =>
    refine ⟨[p], ?_, fun q hq => ?_⟩
    · simp [System.step, System.advance, hinside]
    · have hne : q ≠ p := by
        rintro rfl
        rw [hinside] at hq
        exact hq trivial
      simp [System.step, System.advance, hinside, Function.update_of_ne hne]
  | cons op rest ih =>
    have hnext := h.op hinside
    have hadvance : s.step S (.step p) =
        { s.move p (.inside rest (op (s.data, own)).2) with data := (op (s.data, own)).1 } := by
      simp [System.step, System.advance, hinside]
    obtain ⟨ps, hfree, hsame⟩ := ih hnext hlock _ (Function.update_self ..)
    refine ⟨p :: ps, ?_, fun q hq => ?_⟩
    · rw [List.map_cons, run_cons, hadvance]
      exact hfree
    · have hne : q ≠ p := by
        rintro rfl
        rw [hinside] at hq
        exact hq trivial
      have hphase : Function.update s.phase p (.inside rest (op (s.data, own)).2) q = s.phase q :=
        Function.update_of_ne hne ..
      have hout : ¬ (Function.update s.phase p (.inside rest (op (s.data, own)).2) q).Inside := by
        rw [hphase]
        exact hq
      rw [List.map_cons, run_cons, hadvance, hsame q hout]
      exact hphase

/-- **No deadlock**: a processor that waits for the lock can get it, whatever state the others are in. -/
theorem LockInv.exists_inside (h : LockInv S data s) (hp : s.phase p = .waiting own ∨ s.phase p = .seenFree own) :
    ∃ ps : List κ, (Lib.run (System.step S) s (ps.map Event.step)).phase p = .inside S.ops own := by
  obtain ⟨ps, hfree, hsame⟩ := h.exists_free
  have hphase : (Lib.run (System.step S) s (ps.map Event.step)).phase p = s.phase p := by
    apply hsame
    rcases hp with hp | hp
    · rw [hp]
      exact id
    · rw [hp]
      exact id
  rw [← hphase] at hp
  rcases hp with hp | hp
  · refine ⟨ps ++ [p, p], ?_⟩
    rw [List.map_append, run_append]
    simp [System.step, System.advance, hp, hfree]
  · refine ⟨ps ++ [p], ?_⟩
    rw [List.map_append, run_append]
    simp [System.step, System.advance, hp, hfree]

end

end Cutesugar.Lib.SpinLock
