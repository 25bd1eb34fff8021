import Cutesugar.Kernel.Arch.Mapping

/-!
# New roots

`KernelNewPageStructure` copies the entries of two roots into the next frame of the pool, so
the new root shares every table below the slots it copied. Where the roots it copied from are
roots of a forest, it is one more root of the forest.
-/

namespace Cutesugar.Kernel.Mmu

open Lib Lib.Memory

variable {P : Platform} {V : View} {count : ℕ} {s s' : State}

/-- A view that looks at fewer paths sees a forest too. -/
theorem Forest.mono {V' : View} (h : Forest P V count s)
    (hview : ∀ r q, V'.Path r q → V.Path r q) : Forest P V' count s where
  pool := h.pool
  noAlias hp hlp ht hq hlq hu := h.noAlias (hview _ _ hp) hlp ht (hview _ _ hq) hlq hu
  fresh hp hlp ht := h.fresh (hview _ _ hp) hlp ht
  joined hp hlp ht := h.joined (hview _ _ hp) hlp ht

/-- What `KernelNewPageStructure` does: the next frame of the pool becomes a root with the upper
half of `kernel_pml4` and the lower half of `old`. -/
structure NewRoot (P : Platform) (s s' : State) (old F : ℕ) : Prop where
  isFrame : F = frameAt P s s.stackPosition
  list : s'.memList = s.memList
  pos : s'.stackPosition = s.stackPosition + 1
  upper : Apart P.kernelPml4 4096 F 4096 →
    ∀ i, 256 ≤ i → i < 512 → entry s'.mem F i = entry s.mem P.kernelPml4 i
  lower : old ≠ 0 → Apart old 4096 F 4096 →
    ∀ i < 256, entry s'.mem F i = entry s.mem old i
  frame : ∀ u j, j < 512 → Apart u 4096 F 4096 → entry s'.mem u j = entry s.mem u j

theorem kernelNewPageStructure_spec (hpool : Pool P count s) (hroom : s.stackPosition < count)
    (old : ℕ) :
    NewRoot P s (kernelNewPageStructure P s old).2 old (kernelNewPageStructure P s old).1 := by
  have hbits := hpool.disjoint _ le_rfl hroom
  have hlt : s.memList s.stackPosition + P.hhdmOffset < 2 ^ 64 := by
    rw [← lor_eq_add_of_land_eq_zero hbits]
    exact Nat.or_lt_two_pow ((hpool.below _ le_rfl hroom).trans (by decide)) P.hhdmOffset_lt
  simp only [kernelNewPageStructure, kernelAllocateFrame, Nat.mod_eq_of_lt hlt]
  generalize hF : s.memList s.stackPosition + P.hhdmOffset = F
  refine ⟨hF.symm, rfl, rfl, ?_, ?_, ?_⟩
  · -- the second copy puts the upper half over whatever the first left
    intro hapart i hi hi'
    unfold Apart at hapart
    have hsrc : ∀ m : Memory, (m.memcpy (F + 8 * 256) (P.kernelPml4 + 8 * 256) 2048).load64
        (F + 8 * 256 + (8 * i - 8 * 256)) =
        m.load64 (P.kernelPml4 + 8 * 256 + (8 * i - 8 * 256)) :=
      fun m => load64_memcpy (by omega)
    have hF' : F + 8 * i = F + 8 * 256 + (8 * i - 8 * 256) := by omega
    have hK' : P.kernelPml4 + 8 * i = P.kernelPml4 + 8 * 256 + (8 * i - 8 * 256) := by omega
    show Memory.load64 _ (F + 8 * i) = Memory.load64 _ (P.kernelPml4 + 8 * i)
    rw [hF', hsrc, hK']
    split_ifs
    · rw [load64_memcpy_of_apart (by unfold Apart; omega),
        load64_memset_of_apart (by unfold Apart; omega)]
    · rw [load64_memset_of_apart (by unfold Apart; omega)]
  · intro hold hapart i hi
    unfold Apart at hapart
    show Memory.load64 _ (F + 8 * i) = Memory.load64 _ (old + 8 * i)
    rw [if_pos hold, load64_memcpy_of_apart (by unfold Apart; omega), load64_memcpy (by omega),
      load64_memset_of_apart (by unfold Apart; omega)]
  · intro u j hj hapart
    unfold Apart at hapart
    show Memory.load64 _ (u + 8 * j) = Memory.load64 _ (u + 8 * j)
    rw [load64_memcpy_of_apart (by unfold Apart; omega)]
    split_ifs
    · rw [load64_memcpy_of_apart (by unfold Apart; omega),
        load64_memset_of_apart (by unfold Apart; omega)]
    · rw [load64_memset_of_apart (by unfold Apart; omega)]

section NewRoot

variable {V' : View} {old F o : ℕ}

theorem NewRoot.entry_eq (hnew : NewRoot P s s' old F) (h : Forest P V count s)
    (hroom : s.stackPosition < count) {r u j : ℕ} {q : List ℕ} (hq : V.Path r q)
    (hlq : q.length ≤ 3) (hu : tableAt P s.mem r q = some u) (hj : j < 512) :
    entry s'.mem u j = entry s.mem u j :=
  hnew.frame u j hj (hnew.isFrame ▸ h.fresh hq hlq hu _ le_rfl hroom)

theorem NewRoot.tableAt_eq (hnew : NewRoot P s s' old F) (h : Forest P V count s)
    (hroom : s.stackPosition < count) {r : ℕ} {q : List ℕ} (hq : V.Path r q)
    (hlq : q.length ≤ 3) : tableAt P s'.mem r q = tableAt P s.mem r q := by
  refine descend_congr fun p' j hpre u hu => child_congr ?_
  have hpath := hq.initial hpre
  have hlen' : (p' ++ [j]).length ≤ q.length := hpre.length_le
  rw [List.length_append, List.length_singleton] at hlen'
  exact hnew.entry_eq h hroom hpath.of_append (by omega) hu hpath.last_lt

/-- Below a slot copied from `o` the new root has the tables of `o`. -/
theorem NewRoot.tableAt_new (hnew : NewRoot P s s' old F) (h : Forest P V count s)
    (hroom : s.stackPosition < count) {i : ℕ} {q : List ℕ} (hq : V.Path o (i :: q))
    (hlq : (i :: q).length ≤ 3) (hcopy : entry s'.mem F i = entry s.mem o i) :
    tableAt P s'.mem F (i :: q) = tableAt P s.mem o (i :: q) := by
  have hi : i < 512 := hq.2.1 i (List.mem_cons_self ..)
  have hroot : entry s'.mem F i = entry s'.mem o i := by
    rw [hcopy, hnew.entry_eq h hroom (q := []) (hq.initial List.nil_prefix) (by simp) rfl hi]
  rw [← hnew.tableAt_eq h hroom hq hlq, tableAt, tableAt, descend_cons, descend_cons]
  unfold child
  rw [hroot]

/-- **A root that shares slots** of a root of the view keeps the forest. -/
theorem NewRoot.forest (hnew : NewRoot P s s' old F) (h : Forest P V count s)
    (hroom : s.stackPosition < count)
    (hview : ∀ r q, V'.Path r q → V.Path r q ∨ (r = F ∧ (q = [] ∨ V.Path o q)))
    (hcopy : ∀ i, V.Path o [i] → V'.Path F [i] → entry s'.mem F i = entry s.mem o i) :
    Forest P V' count s' := by
  have hpos : s.stackPosition ≤ s'.stackPosition := by rw [hnew.pos]; omega
  -- every table seen in the new state is the new root or an old table at the same path
  have hcases {r u : ℕ} {q : List ℕ} (hq : V'.Path r q) (hlq : q.length ≤ 3)
      (hu : tableAt P s'.mem r q = some u) :
      (∃ r', V.Path r' q ∧ tableAt P s.mem r' q = some u) ∨ (r = F ∧ q = [] ∧ u = F) := by
    rcases hview r q hq with hold | ⟨rfl, rfl | hold⟩
    · exact .inl ⟨r, hold, hnew.tableAt_eq h hroom hold hlq ▸ hu⟩
    · exact .inr ⟨rfl, rfl, (Option.some.inj hu).symm⟩
    · cases q with
      | nil => exact .inr ⟨rfl, rfl, (Option.some.inj hu).symm⟩
      | cons i q =>
        refine .inl ⟨o, hold, ?_⟩
        have hone : ∀ {W : View} {x : ℕ}, W.Path x (i :: q) → W.Path x [i] :=
          fun hx => hx.initial ⟨q, rfl⟩
        rwa [← hnew.tableAt_new h hroom hold hlq (hcopy i (hone hold) (hone hq))]
  refine ⟨h.pool.mono hnew.list hpos, ?_, ?_, ?_⟩
  · intro r r' p q t u hp hlp ht hq hlq hu
    rcases hcases hp hlp ht with ⟨x, hpx, htx⟩ | ⟨rfl, rfl, rfl⟩
    · rcases hcases hq hlq hu with ⟨y, hqy, huy⟩ | ⟨rfl, rfl, rfl⟩
      · exact h.noAlias hpx hlp htx hqy hlq huy
      · exact .inr (hnew.isFrame ▸ h.fresh hpx hlp htx _ le_rfl hroom)
    · rcases hcases hq hlq hu with ⟨y, hqy, huy⟩ | ⟨-, rfl, rfl⟩
      · exact .inr (hnew.isFrame ▸ h.fresh hqy hlq huy _ le_rfl hroom).symm
      · exact .inl ⟨rfl, rfl⟩
  · intro r p t hp hlp ht k hk hk'
    rw [hnew.pos] at hk
    have hat : frameAt P s' k = frameAt P s k := by rw [frameAt, hnew.list, frameAt]
    rw [hat]
    rcases hcases hp hlp ht with ⟨x, hpx, htx⟩ | ⟨-, -, rfl⟩
    · exact h.fresh hpx hlp htx k (by omega) hk'
    · rw [hnew.isFrame]
      exact h.pool.apart le_rfl hroom (by omega) hk' (by omega)
  · intro r p t j hp hlp ht hpres
    rcases hview r _ hp with hold | ⟨rfl, hnil | hold⟩
    · rw [hnew.tableAt_eq h hroom hold.of_append (by omega)] at ht
      rw [hnew.entry_eq h hroom hold.of_append (by omega) ht hp.last_lt] at hpres ⊢
      exact h.joined hold hlp ht hpres
    · exact absurd hnil (by simp)
    · cases p with
      | nil =>
        obtain rfl : r = t := Option.some.inj ht
        rw [hcopy j hold hp] at hpres ⊢
        exact h.joined (p := []) hold (by simp) rfl hpres
      | cons i q =>
        have hone : ∀ {W : View} {x : ℕ}, W.Path x (i :: q ++ [j]) → W.Path x [i] :=
          fun hx => hx.initial ⟨q ++ [j], rfl⟩
        rw [hnew.tableAt_new h hroom hold.of_append (by omega)
          (hcopy i (hone hold) (hone hp))] at ht
        rw [hnew.entry_eq h hroom hold.of_append (by omega) ht hp.last_lt] at hpres ⊢
        exact h.joined hold hlp ht hpres

end NewRoot

end Cutesugar.Kernel.Mmu
