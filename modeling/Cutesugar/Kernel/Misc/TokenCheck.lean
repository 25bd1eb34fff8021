import Cutesugar.Kernel.Arch.TaskPrivilege

/-!
# The check of a token

`KernelCheckToken` goes from the current node to its task and the identifier of it, back over the ring to
the first task with that identifier, and on to the token of that one. As long as no identifier was given
twice this is the token that was made when the current process was created.

- `Births`: runs of the task calls, with the permissions each process was created with.
- `kernelCheckToken_exact`: what the check answers after any run.
-/

namespace Cutesugar.Kernel

open Lib

variable {P : Mmu.Platform} {fuel resumeUser i : ℕ} {s : State} {ps : List ℕ} {rights : List Bool}
  {perms : List UInt8} {c : TaskCall}

/-! ## Creations -/

/-- The permissions that a call passes to `KernelGetTokenForProcess`. -/
def TaskCall.permissions : TaskCall → UInt8
  | .initializeProcess _ permissions => UInt8.ofNat permissions
  | .cloneProcess _ _ => 1
  | .switchProcess _ => 0

/-- A kernel with the nodes of its processes and the permissions each of them was created with. -/
structure Births where
  kernel : State
  born : List (ℕ × UInt8)

def Births.step (P : Mmu.Platform) (fuel resumeUser : ℕ) (b : Births) (c : TaskCall) : Births where
  kernel := c.step P fuel resumeUser b.kernel
  born :=
    if c.creates then b.born ++ [(b.kernel.blocks b.kernel.mallocs, c.permissions)] else b.born

/-- There is no current process, or it was created with permission bit 0. -/
def Births.Granted (b : Births) : Prop :=
  getCurrentProcess b.kernel = 0 ∨ ∃ x ∈ b.born, x.1 = b.kernel.currentTask ∧ x.2 &&& 1 = 1

instance (b : Births) : Decidable b.Granted :=
  inferInstanceAs (Decidable (_ ∨ ∃ x ∈ b.born, _))

theorem permissions_and (c : TaskCall) : c.permissions &&& 1 = rightByte c.right := by
  cases c with
  | initializeProcess rip permissions => exact rightByte_ofNat permissions
  | cloneProcess rip ursp => exact (show (1 : UInt8) &&& 1 = rightByte true by decide)
  | switchProcess rsp => exact (show (0 : UInt8) &&& 1 = rightByte false by decide)

theorem right_eq (c : TaskCall) : c.right = (c.permissions &&& 1 == 1) := by
  rw [permissions_and]
  cases c.right <;> rfl

/-- The ring, and the permissions of its processes in the same order. -/
structure BirthInv (b : Births) (ps : List ℕ) (perms : List UInt8) : Prop
    extends RightsInv b.kernel ps (perms.map fun p => p &&& 1 == 1) where
  born : b.born = ps.zip perms

variable {b : Births}

theorem BirthInv.length (h : BirthInv b ps perms) : perms.length = ps.length := by
  have hrights := h.toRightsInv.length
  rwa [List.length_map] at hrights

theorem BirthInv.start (h : Start s) : BirthInv ⟨s, []⟩ [] [] where
  toRightsInv := RightsInv.start h
  born := rfl

/-- **Step lemma**: a creation adds a process with its permissions. -/
theorem BirthInv.step (h : BirthInv b ps perms) (hret : c.Returns P fuel resumeUser b.kernel) :
    BirthInv (b.step P fuel resumeUser c)
      (if c.creates then ps ++ [b.kernel.blocks b.kernel.mallocs] else ps)
      (if c.creates then perms ++ [c.permissions] else perms) := by
  have hrights := h.toRightsInv.step hret
  by_cases hc : c.creates
  · rw [if_pos hc, if_pos hc] at hrights ⊢
    refine { toRightsInv := ?_, born := ?_ }
    · rw [List.map_append, List.map_singleton, ← right_eq]
      exact hrights
    · rw [Births.step, if_pos hc, h.born, List.zip_append h.length.symm]
      rfl
  · rw [if_neg hc, if_neg hc] at hrights ⊢
    refine { toRightsInv := hrights, born := ?_ }
    rw [Births.step, if_neg hc, h.born]

/-- **Run lemma.** -/
theorem BirthInv.run (h : BirthInv b ps perms) {calls : List TaskCall}
    (hret : Along (Births.step P fuel resumeUser) (fun b c => c.Returns P fuel resumeUser b.kernel) b calls) :
    ∃ qs perms', BirthInv (Lib.run (Births.step P fuel resumeUser) b calls) qs perms' ∧
      qs.length = ps.length + calls.countP TaskCall.creates := by
  have hstep : ∀ b c ps, (∃ perms, BirthInv b ps perms) → c.Returns P fuel resumeUser b.kernel →
      ∃ qs : List ℕ, (∃ perms, BirthInv (b.step P fuel resumeUser c) qs perms) ∧
        qs.length = ps.length + if c.creates then 1 else 0 := by
    rintro b c ps ⟨perms, h⟩ hc
    refine ⟨_, ⟨_, h.step hc⟩, ?_⟩
    split_ifs
    · rw [List.length_append, List.length_singleton]
    · rfl
  obtain ⟨qs, ⟨perms', hinv⟩, hlen⟩ :=
    hret.counts (I := fun b ps => ∃ perms, BirthInv b ps perms) List.length ⟨perms, h⟩ hstep
  exact ⟨qs, perms', hinv, hlen⟩

/-! ## The check -/

/-- The check answers yes or no: the walk over the ring comes to a process with the identifier. -/
theorem RightsInv.kernelCheckToken_total (h : RightsInv s ps rights) (hfuel : ps.length ≤ fuel)
    (hi : ps[i]? = some s.currentTask) :
    Kernel.kernelCheckToken fuel s 1 = some 0 ∨ Kernel.kernelCheckToken fuel s 1 = some 1 := by
  obtain ⟨b, -, hcheck⟩ := h.kernelCheckToken_eq hfuel hi
  rw [hcheck]
  split_ifs
  · exact .inr rfl
  · exact .inl rfl

/-- The permissions of the process at a place of the ring. -/
theorem BirthInv.born_iff (h : BirthInv b ps perms) {p : ℕ} (hp : ps[i]? = some p) (v : UInt8) :
    (p, v) ∈ b.born ↔ perms[i]? = some v := by
  rw [h.born, List.mem_iff_getElem?]
  constructor
  · rintro ⟨j, hj⟩
    obtain ⟨hnode, hv⟩ := List.getElem?_zip_eq_some.mp hj
    -- every node has one place
    obtain rfl : j = i := by
      obtain ⟨hj, hj'⟩ := List.getElem?_eq_some_iff.mp hnode
      obtain ⟨hi, hi'⟩ := List.getElem?_eq_some_iff.mp hp
      exact h.nodup.getElem_inj_iff.mp (hj'.trans hi'.symm)
    exact hv
  · exact fun hv => ⟨i, List.getElem?_zip_eq_some.mpr ⟨hp, hv⟩⟩

/-- **The check in a state**: before the identifiers repeat, it answers by the permissions that the current
process was created with. -/
theorem BirthInv.kernelCheckToken (h : BirthInv b ps perms) (hfew : ps.length < 2 ^ 32 - 1)
    (hfuel : ps.length ≤ fuel) :
    (Kernel.kernelCheckToken fuel b.kernel 1).isSome ∧
      (Kernel.kernelCheckToken fuel b.kernel 1 = some 1 ↔ b.Granted) := by
  by_cases hnil : ps = []
  · -- no process was created
    obtain ⟨-, hcurrent⟩ := h.empty hnil
    have hcheck : Kernel.kernelCheckToken fuel b.kernel 1 = some 1 := by
      unfold Kernel.kernelCheckToken
      rw [getCurrentProcessId, if_pos hcurrent]
      rfl
    rw [hcheck]
    refine ⟨rfl, iff_of_true rfl (.inl ?_)⟩
    rw [getCurrentProcess, if_pos hcurrent]
  · have hmem := h.current hnil
    obtain ⟨i, hi⟩ := List.mem_iff_getElem?.mp hmem
    have hlt : i < ps.length := (List.getElem?_eq_some_iff.mp hi).1
    have hcurrent : b.kernel.currentTask ≠ 0 := h.nonnull hmem
    obtain ⟨j, -, htask⟩ := h.task _ hmem
    have hprocess : getCurrentProcess b.kernel ≠ 0 := by
      rw [getCurrentProcess, if_neg hcurrent, htask]
      exact h.blocks.nonnull j
    obtain ⟨v, hv⟩ : ∃ v, perms[i]? = some v := ⟨_, List.getElem?_eq_getElem (h.length ▸ hlt)⟩
    have hdenied : Denied (perms.map fun p => p &&& 1 == 1) i ↔ ¬ v &&& 1 = 1 := by
      rw [Denied, Nat.mod_eq_of_lt (by omega : i < 2 ^ 32), Nat.mod_eq_of_lt (by omega), List.getElem?_map, hv]
      simp
    have hgranted : b.Granted ↔ v &&& 1 = 1 := by
      unfold Births.Granted
      constructor
      · rintro (hnull | ⟨⟨p, w⟩, hw, rfl, hbit⟩)
        · exact absurd hnull hprocess
        · obtain rfl := Option.some.inj (hv.symm.trans ((h.born_iff hi w).mp hw))
          exact hbit
      · exact fun hbit => .inr ⟨_, (h.born_iff hi v).mpr hv, rfl, hbit⟩
    have hcheck := h.toRightsInv.kernelCheckToken hfuel hi
    rw [hdenied] at hcheck
    rw [hgranted]
    rcases h.toRightsInv.kernelCheckToken_total hfuel hi with hzero | hone
    · rw [hzero] at hcheck ⊢
      exact ⟨rfl, iff_of_false (by decide) (hcheck.mp rfl)⟩
    · rw [hone] at hcheck ⊢
      exact ⟨rfl, iff_of_true rfl (by_contra fun hbit => absurd (hcheck.mpr hbit) (by decide))⟩

/-- **Exactness**: after every run with few creations the check of permission bit 0 returns, and it answers
yes exactly if there is no current process or this was created with the permission. -/
theorem kernelCheckToken_exact (hstart : Start s) {calls : List TaskCall}
    (hret : Along (Births.step P fuel resumeUser) (fun b c => c.Returns P fuel resumeUser b.kernel) ⟨s, []⟩ calls)
    (hfew : calls.countP TaskCall.creates < 2 ^ 31 - 1) {rounds : ℕ}
    (hrounds : calls.countP TaskCall.creates ≤ rounds) :
    (kernelCheckToken rounds (run (Births.step P fuel resumeUser) ⟨s, []⟩ calls).kernel 1).isSome ∧
      (kernelCheckToken rounds (run (Births.step P fuel resumeUser) ⟨s, []⟩ calls).kernel 1 = some 1 ↔
        (run (Births.step P fuel resumeUser) ⟨s, []⟩ calls).Granted) := by
  obtain ⟨ps, perms, hinv, hlen⟩ := (BirthInv.start hstart).run hret
  rw [List.length_nil, Nat.zero_add] at hlen
  exact hinv.kernelCheckToken (by omega) (by omega)

/-- Two processes, the second one without the permission, which is current at the end. -/
theorem kernelCheckToken_exact_boot :
    kernelCheckToken 8 (run (Births.step Mmu.bootPlatform 8 0xFFFFFFFF80001000) ⟨bootKernel, []⟩
      [.initializeProcess 0x1000 1, .initializeProcess 0x2000 2, .switchProcess 0]).kernel 1 ≠ some 1 := by
  have hret : Along (Births.step Mmu.bootPlatform 8 0xFFFFFFFF80001000)
      (fun b c => c.Returns Mmu.bootPlatform 8 0xFFFFFFFF80001000 b.kernel) ⟨bootKernel, []⟩
      [.initializeProcess 0x1000 1, .initializeProcess 0x2000 2, .switchProcess 0] := by decide
  have hrounds : [TaskCall.initializeProcess 0x1000 1, .initializeProcess 0x2000 2,
      .switchProcess 0].countP TaskCall.creates ≤ 8 := by decide
  obtain ⟨-, hiff⟩ := kernelCheckToken_exact bootKernel_start hret (by decide) hrounds
  rw [ne_eq, hiff]
  decide

end Cutesugar.Kernel
