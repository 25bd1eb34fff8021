import Cutesugar.Kernel.Arch.NewRoot
import Cutesugar.Kernel.Arch.PageMap

/-!
# Coherence of the kernel half

The upper 256 slots of `kernel_pml4` are copied into a new root when it is created. Mapping in
`kernel_pml4` later on changes what the copies see only through the tables they share, so a
mapping that has to fill a slot of `kernel_pml4` itself reaches no root created before it.

## Structure

- `KernelCall`, `KernelRun.step`: new roots, and mappings in `kernel_pml4`.
- `Coherent`: every root returned translates the upper half as `kernel_pml4` does.
- `Covered`: the mappings that fill no slot behind the back of an existing root.
- `KernelHalf`: the invariant, with what breaks it.
-/

namespace Cutesugar.Kernel.Mmu

open Lib Lib.Memory

/-! ## Runs -/

inductive KernelCall where
  | newPageStructure (old : ℕ)
  | mapMmio (virtualAddress physicalAddress : ℕ)
  | mapPage (virtualAddress physicalAddress : ℕ) (user : UInt8)
  | unmapPage (virtualAddress : ℕ)

/-- The paging state and the roots returned so far. -/
structure KernelRun where
  mmu : State
  roots : List ℕ

/-- A call; mapping and unmapping are on `kernel_pml4`. -/
def KernelRun.step (P : Platform) (s : KernelRun) : KernelCall → KernelRun
  | .newPageStructure old =>
    let (root, mmu) := kernelNewPageStructure P s.mmu old
    { mmu, roots := root :: s.roots }
  | .mapMmio v pa => { s with mmu := kernelMapMmio P s.mmu v pa }
  | .mapPage v pa user => { s with mmu := kernelMapPage P s.mmu P.kernelPml4 v pa user }
  | .unmapPage v => { s with mmu := (kernelUnmapPage P s.mmu P.kernelPml4 v).2 }

/-- Physical addresses are 64-bit words. -/
def KernelCall.Word : KernelCall → Prop
  | .mapMmio _ pa => pa < 2 ^ 64
  | .mapPage _ pa _ => pa < 2 ^ 64
  | _ => True

instance : (c : KernelCall) → Decidable c.Word
  | .newPageStructure _ => .isTrue trivial
  | .mapMmio _ pa => inferInstanceAs (Decidable (pa < 2 ^ 64))
  | .mapPage _ pa _ => inferInstanceAs (Decidable (pa < 2 ^ 64))
  | .unmapPage _ => .isTrue trivial

/-- The pool has the frames the call takes. -/
def KernelRun.HasRoom (P : Platform) (count : ℕ) (s : KernelRun) (c : KernelCall) : Prop :=
  (s.step P c).mmu.stackPosition ≤ count

instance (P : Platform) (count : ℕ) (s : KernelRun) (c : KernelCall) :
    Decidable (s.HasRoom P count c) :=
  inferInstanceAs (Decidable (_ ≤ _))

/-- The call is well formed and the pool has the frames it takes. -/
def KernelRun.Possible (P : Platform) (count : ℕ) (s : KernelRun) (c : KernelCall) : Prop :=
  c.Word ∧ s.HasRoom P count c

instance (P : Platform) (count : ℕ) (s : KernelRun) (c : KernelCall) :
    Decidable (s.Possible P count c) :=
  inferInstanceAs (Decidable (_ ∧ _))

/-- Every root returned translates the upper half as `kernel_pml4` does. -/
def KernelRun.Coherent (P : Platform) (s : KernelRun) : Prop :=
  ∀ root ∈ s.roots, ∀ v, 256 ≤ pml4Index v →
    kernelGetPhysicalAddress P s.mmu root v = kernelGetPhysicalAddress P s.mmu P.kernelPml4 v

/-- A mapping at `v` fills no slot of the upper half that a root already misses: it lands in the
lower half, in a present slot, or before the first root was returned. -/
def KernelRun.MapCovered (P : Platform) (s : KernelRun) (v : ℕ) : Prop :=
  pml4Index v < 256 ∨ present (entry s.mmu.mem P.kernelPml4 (pml4Index v)) = true ∨ s.roots = []

instance (P : Platform) (s : KernelRun) (v : ℕ) : Decidable (s.MapCovered P v) :=
  inferInstanceAs (Decidable (_ ∨ _ ∨ _))

/-- Every mapping of the run is covered. -/
def KernelRun.Covered (P : Platform) (s : KernelRun) : KernelCall → Prop
  | .mapMmio v _ => s.MapCovered P v
  | .mapPage v _ _ => s.MapCovered P v
  | _ => True

instance (P : Platform) (s : KernelRun) : (c : KernelCall) → Decidable (s.Covered P c)
  | .newPageStructure _ => .isTrue trivial
  | .mapMmio v _ => inferInstanceAs (Decidable (s.MapCovered P v))
  | .mapPage v _ _ => inferInstanceAs (Decidable (s.MapCovered P v))
  | .unmapPage _ => .isTrue trivial

/-! ## The invariant -/

/-- All slots of `kernel_pml4` and the upper slots of the roots returned. -/
def kernelView (P : Platform) (roots : List ℕ) : View where
  roots := insert P.kernelPml4 {r | r ∈ roots}
  slots r := {i | r = P.kernelPml4 ∨ 256 ≤ i}

structure KernelHalf (P : Platform) (count : ℕ) (s : KernelRun) : Prop where
  forest : Forest P (kernelView P s.roots) count s.mmu
  ne : ∀ root ∈ s.roots, root ≠ P.kernelPml4
  upper : ∀ root ∈ s.roots, ∀ i, 256 ≤ i → i < 512 →
    entry s.mmu.mem root i = entry s.mmu.mem P.kernelPml4 i

variable {P : Platform} {count : ℕ} {s : KernelRun}

theorem kernelView_kernel {roots : List ℕ} {i : ℕ} (hi : i < 512) :
    (kernelView P roots).Path P.kernelPml4 [i] :=
  ⟨Set.mem_insert .., by simpa using hi, fun _ _ => .inl rfl⟩

theorem kernelView_root {roots : List ℕ} {root i : ℕ} (hroot : root ∈ roots) (hi : 256 ≤ i)
    (hi' : i < 512) : (kernelView P roots).Path root [i] := by
  refine ⟨Set.mem_insert_of_mem _ hroot, by simpa using hi', fun j hj => ?_⟩
  obtain rfl : i = j := by simpa using hj
  exact .inr hi

/-- Before the first root is returned the tables of `kernel_pml4` are all there is. -/
theorem KernelHalf.start {mmu : State} (h : Forest P (View.single P.kernelPml4) count mmu) :
    KernelHalf P count ⟨mmu, []⟩ where
  forest := h.mono fun r q hq => by
    obtain ⟨hr, hlt, -⟩ := hq
    refine ⟨?_, hlt, fun _ _ => trivial⟩
    simpa [kernelView, View.single] using hr
  ne root hroot := absurd hroot List.not_mem_nil
  upper root hroot := absurd hroot List.not_mem_nil

theorem KernelHalf.coherent (h : KernelHalf P count s) : s.Coherent P :=
  fun root hroot v hv =>
    kernelGetPhysicalAddress_congr_root (h.upper root hroot _ hv (pml4Index_lt v))

/-! ## Steps -/

/-- **New root step.** -/
theorem KernelHalf.newPageStructure (h : KernelHalf P count s) {old : ℕ}
    (hroom : (s.step P (.newPageStructure old)).mmu.stackPosition ≤ count) :
    KernelHalf P count (s.step P (.newPageStructure old)) := by
  have hlt : s.mmu.stackPosition < count := hroom
  have hnew := kernelNewPageStructure_spec h.forest.pool hlt old
  simp only [KernelRun.step]
  generalize (kernelNewPageStructure P s.mmu old).1 = F at hnew ⊢
  generalize (kernelNewPageStructure P s.mmu old).2 = mmu at hnew ⊢
  have hkernel : (kernelView P s.roots).Path P.kernelPml4 [] :=
    ⟨Set.mem_insert .., by simp, by simp⟩
  have hapart {root : ℕ} (hroot : (kernelView P s.roots).Path root []) : Apart root 4096 F 4096 :=
    hnew.isFrame ▸ h.forest.fresh hroot (by simp) rfl _ le_rfl hlt
  have hcopy := hnew.upper (hapart hkernel)
  have hFne : F ≠ P.kernelPml4 := fun heq => not_apart_self _ (heq ▸ hapart hkernel)
  refine ⟨?_, ?_, ?_⟩
  · refine hnew.forest (o := P.kernelPml4) h.forest hlt ?_ ?_
    · intro r q hq
      obtain ⟨hr, hlt, hslot⟩ := hq
      simp only [kernelView, Set.mem_insert_iff, Set.mem_ofPred_eq, List.mem_cons] at hr hslot
      -- the upper slots of the new root are those of `kernel_pml4`, and its lower ones are not in the view
      by_cases hrF : r = F
      · exact .inr ⟨hrF, .inr ⟨Set.mem_insert .., hlt, fun _ _ => .inl rfl⟩⟩
      · refine .inl ⟨?_, hlt, hslot⟩
        simpa [kernelView, hrF] using hr
    · intro i _ hi
      obtain ⟨-, hlt, hslot⟩ := hi
      have hupper : F = P.kernelPml4 ∨ 256 ≤ i := hslot i (by simp)
      exact hcopy i (hupper.resolve_left hFne) (hlt i (by simp))
  · intro root hroot
    rcases List.mem_cons.mp hroot with rfl | hroot
    · exact hFne
    · exact h.ne root hroot
  · intro root hroot i hi hi'
    have hsame {r : ℕ} (hr : (kernelView P s.roots).Path r []) :
        entry mmu.mem r i = entry s.mmu.mem r i :=
      hnew.entry_eq h.forest hlt hr (by simp) rfl hi'
    rcases List.mem_cons.mp hroot with rfl | hroot
    · rw [hcopy i hi hi', hsame hkernel]
    · rw [hsame hkernel, hsame ((kernelView_root hroot hi hi').initial List.nil_prefix),
        h.upper root hroot i hi hi']

/-- **Mapping step**: a covered mapping changes no upper slot that a root has. -/
theorem KernelHalf.mapValue (h : KernelHalf P count s) {v pa value : ℕ} (hval : Flags value)
    (hpa : pa < 2 ^ 64) (hcovered : s.MapCovered P v)
    (hroom : (mapValue P s.mmu P.kernelPml4 v pa value).stackPosition ≤ count) :
    KernelHalf P count { s with mmu := mapValue P s.mmu P.kernelPml4 v pa value } := by
  have hpath : (kernelView P s.roots).Path P.kernelPml4 [pml4Index v] :=
    kernelView_kernel (pml4Index_lt v)
  rcases mapValue_cases h.forest hpath P.kernelPml4_ne hval hpa hroom with
    ⟨f, -, heq⟩ | ⟨-, s₁, pt, hgrows, hset⟩
  · rw [heq]
    exact h
  · refine ⟨hset.forest hgrows.forest hpath, h.ne, fun root hroot i hi hi' => ?_⟩
    have hleaf {r : ℕ} (hr : (kernelView P s.roots).Path r [i]) :=
      hset.entry_inner hgrows.forest hpath (hr.initial List.nil_prefix) (by simp) rfl hi'
    have hrootpath := kernelView_root (P := P) hroot hi hi'
    have hkernelpath : (kernelView P s.roots).Path P.kernelPml4 [i] := kernelView_kernel hi'
    have hroots : s.roots ≠ [] := List.ne_nil_of_mem hroot
    have hslot : i = pml4Index v → present (entry s.mmu.mem P.kernelPml4 i) = true := by
      rintro rfl
      rcases hcovered with hlow | hpres | hnil
      · omega
      · exact hpres
      · exact absurd hnil hroots
    rw [hleaf hrootpath, hleaf hkernelpath,
      hgrows.slots hrootpath fun heq => absurd heq (h.ne root hroot),
      hgrows.slots hkernelpath fun _ => hslot, h.upper root hroot i hi hi']

/-- **Unmapping step.** -/
theorem KernelHalf.unmapPage (h : KernelHalf P count s) (v : ℕ) :
    KernelHalf P count { s with mmu := (kernelUnmapPage P s.mmu P.kernelPml4 v).2 } := by
  have hpath : (kernelView P s.roots).Path P.kernelPml4 [pml4Index v] :=
    kernelView_kernel (pml4Index_lt v)
  rcases kernelUnmapPage_spec (P := P) s.mmu P.kernelPml4_ne v with
    ⟨pt, f, -, heq, htable⟩ | ⟨-, -, hstate⟩
  · have hset : SetLeaf P P.kernelPml4 v 0 s.mmu (kernelUnmapPage P s.mmu P.kernelPml4 v).2 pt :=
      ⟨htable, by decide, by rw [heq]⟩
    refine ⟨hset.forest h.forest hpath, h.ne, fun root hroot i hi hi' => ?_⟩
    have hleaf {r : ℕ} (hr : (kernelView P s.roots).Path r [i]) :=
      hset.entry_inner h.forest hpath (hr.initial List.nil_prefix) (by simp) rfl hi'
    rw [hleaf (kernelView_root hroot hi hi'), hleaf (kernelView_kernel hi'),
      h.upper root hroot i hi hi']
  · rw [hstate]
    exact h

/-- **Step lemma**: possible calls whose mappings are covered keep the invariant. -/
theorem KernelHalf.step (h : KernelHalf P count s) {c : KernelCall} (hposs : s.Possible P count c)
    (hcovered : s.Covered P c) : KernelHalf P count (s.step P c) := by
  obtain ⟨hword, hroom⟩ := hposs
  cases c with
  | newPageStructure old => exact h.newPageStructure hroom
  | mapMmio v pa => exact h.mapValue flags_mmio hword hcovered hroom
  | mapPage v pa user => exact h.mapValue (flags_user user) hword hcovered hroom
  | unmapPage v => exact h.unmapPage v

theorem present_lor_of_odd {pa value : ℕ} (hval : Flags value) : present (pa ||| value) = true := by
  rw [present_iff, Nat.or_mod_two_eq_one]
  exact .inr hval.odd

/-- **A mapping that is not covered** translates its address under `kernel_pml4` and under no
root returned before. -/
theorem KernelHalf.mapValue_breaks (h : KernelHalf P count s) {v pa value : ℕ}
    (hval : Flags value) (hpa : pa < 2 ^ 64) (hcovered : ¬ s.MapCovered P v)
    (hroom : (Mmu.mapValue P s.mmu P.kernelPml4 v pa value).stackPosition ≤ count) :
    ¬ KernelRun.Coherent P { s with mmu := Mmu.mapValue P s.mmu P.kernelPml4 v pa value } := by
  have hpath : (kernelView P s.roots).Path P.kernelPml4 [pml4Index v] :=
    kernelView_kernel (pml4Index_lt v)
  obtain ⟨hupper, habsent, hroots⟩ : ¬ pml4Index v < 256 ∧
      ¬ present (entry s.mmu.mem P.kernelPml4 (pml4Index v)) = true ∧ s.roots ≠ [] := by
    simpa only [KernelRun.MapCovered, not_or] using hcovered
  obtain ⟨root, hroot⟩ := List.exists_mem_of_ne_nil _ hroots
  have hrootpath := kernelView_root (P := P) hroot (not_lt.mp hupper) (pml4Index_lt v)
  have hrootnil := hrootpath.initial List.nil_prefix
  rcases mapValue_cases h.forest hpath P.kernelPml4_ne hval hpa hroom with
    ⟨f, hlook, -⟩ | ⟨-, s₁, pt, hgrows, hset⟩
  · -- the slot is absent, so nothing below it is translated
    obtain ⟨_, htable, -⟩ := Option.bind_eq_some_iff.mp hlook
    obtain ⟨_, hchild, -⟩ := Option.bind_eq_some_iff.mp htable
    rw [child_of_not_present (Bool.eq_false_iff.mpr habsent)] at hchild
    exact absurd hchild (by simp)
  · intro hcoherent
    have hforest := hset.forest hgrows.forest hpath
    have hkernel := kernelGetPhysicalAddress_returns hforest hpath
    have hlook := hset.lookup_eq hgrows.forest hpath hpath
    rw [if_pos ⟨hset.table, rfl⟩, if_pos (present_lor_of_odd hval)] at hlook
    rw [hlook] at hkernel
    have hmiss : present (entry (Mmu.mapValue P s.mmu P.kernelPml4 v pa value).mem root
        (pml4Index v)) = false := by
      rw [hset.entry_inner hgrows.forest hpath hrootnil (by simp) rfl (pml4Index_lt v),
        hgrows.slots hrootpath fun heq => absurd heq (h.ne root hroot),
        h.upper root hroot _ (not_lt.mp hupper) (pml4Index_lt v)]
      exact Bool.eq_false_iff.mpr habsent
    have hreturn := kernelGetPhysicalAddress_of_absent (P := P) hmiss
    rw [hcoherent root hroot v (not_lt.mp hupper)] at hreturn
    refine hkernel.ne_of_lookup (lookup_mod hlook) (o := none) ?_ (by simp) rfl
    rw [Returns, hreturn]
    decide

/-! ## Whole runs -/

/-- Well-formed calls along a run with room are possible calls. -/
theorem along_possible {s : KernelRun} {calls : List KernelCall} (hwords : ∀ c ∈ calls, c.Word)
    (hroom : Along (KernelRun.step P) (KernelRun.HasRoom P count) s calls) :
    Along (KernelRun.step P) (KernelRun.Possible P count) s calls :=
  along_and.mpr ⟨along_const.mpr hwords, hroom⟩

/-- **Coherence of the kernel half**, starting from tables of `kernel_pml4` that form a tree: in a
run whose calls find the frames they take in the pool and whose mappings are covered, the roots
returned agree with `kernel_pml4` on the upper half in every state. As long as the pool has the
frames, they do so only where every mapping is covered. -/
theorem coherent_everywhere_iff {mmu : State}
    (hstart : Forest P (View.single P.kernelPml4) count mmu) (calls : List KernelCall)
    (hwords : ∀ c ∈ calls, c.Word) :
    (Along (KernelRun.step P) (fun s c => s.HasRoom P count c ∧ s.Covered P c) ⟨mmu, []⟩ calls →
      Everywhere (KernelRun.step P) (KernelRun.Coherent P) ⟨mmu, []⟩ calls) ∧
    (Along (KernelRun.step P) (KernelRun.HasRoom P count) ⟨mmu, []⟩ calls →
      (Everywhere (KernelRun.step P) (KernelRun.Coherent P) ⟨mmu, []⟩ calls ↔
        Along (KernelRun.step P) (KernelRun.Covered P) ⟨mmu, []⟩ calls)) := by
  have hexact (hroom : Along (KernelRun.step P) (KernelRun.HasRoom P count) ⟨mmu, []⟩ calls) :
      Everywhere (KernelRun.step P) (KernelRun.Coherent P) ⟨mmu, []⟩ calls ↔
        Along (KernelRun.step P) (KernelRun.Covered P) ⟨mmu, []⟩ calls := by
    refine everywhere_iff_along (along_possible hwords hroom) (KernelHalf.start hstart) ?_
      (fun s h => h.coherent) ?_
    · exact fun s c h hposs hcovered => h.step hposs hcovered
    · rintro s c h ⟨hword, hroom⟩ hcovered
      cases c with
      | newPageStructure old => exact absurd trivial hcovered
      | mapMmio v pa => exact h.mapValue_breaks flags_mmio hword hcovered hroom
      | mapPage v pa user => exact h.mapValue_breaks (flags_user user) hword hcovered hroom
      | unmapPage v => exact absurd trivial hcovered
  refine ⟨fun hcond => ?_, hexact⟩
  obtain ⟨hroom, hcovered⟩ := along_and.mp hcond
  exact (hexact hroom).mpr hcovered

theorem bootState_forest : Forest bootPlatform (View.single bootPlatform.kernelPml4) 16 bootState :=
  (Refines.empty bootState_pool (fun i _ => bootState_entry i)
    fun k _ => bootState_unused k).forest

/-- A device mapped before the first root, a second device in the same slot after it. -/
theorem coherent_everywhere_boot :
    Everywhere (KernelRun.step bootPlatform) (KernelRun.Coherent bootPlatform) ⟨bootState, []⟩
      [.mapMmio 0xFFFFE00000400000 0x400000, .newPageStructure 0,
        .mapMmio 0xFFFFE00000500000 0x500000, .mapPage 0x8000 0x8000 0] :=
  (coherent_everywhere_iff bootState_forest _ (by decide)).1 (by decide)

/-- The first device is mapped after a root was created: the new root misses the slot. -/
theorem new_slot_not_coherent :
    Along (KernelRun.step bootPlatform) (KernelRun.HasRoom bootPlatform 16) ⟨bootState, []⟩
      [.newPageStructure 0, .mapMmio 0xFFFFE00000400000 0x400000] ∧
    ¬ Everywhere (KernelRun.step bootPlatform) (KernelRun.Coherent bootPlatform) ⟨bootState, []⟩
      [.newPageStructure 0, .mapMmio 0xFFFFE00000400000 0x400000] := by
  refine ⟨by decide, fun h => ?_⟩
  have heq := h.last 0xFFFF800000100000 (by decide) 0xFFFFE00000400000 (by decide)
  revert heq
  decide

end Cutesugar.Kernel.Mmu
