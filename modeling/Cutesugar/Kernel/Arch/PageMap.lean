import Cutesugar.Kernel.Arch.Mapping
import Cutesugar.Lib.Run

/-!
# Page tables refine a partial map of pages

What `KernelMapPage`, `KernelMapMmio` and `KernelUnmapPage` are for: a partial map from page
numbers to frames. Mapping binds a page that is not bound, unmapping removes a binding. From
a root without entries every sequence of calls keeps `KernelGetPhysicalAddress` in step with
this map.

## Structure

- `PageMap`: the abstract map and its operations.
- `Op`, `Op.Valid`: the calls on one root.
- `Refines`: the relation between both, its step lemma and the run.
-/

namespace Cutesugar.Kernel.Mmu

open Lib Lib.Memory

/-! ## Calls and the abstract map -/

/-- A call on one root. -/
inductive Op where
  | mapPage (virtualAddress physicalAddress : ℕ) (user : UInt8)
  | mapMmio (virtualAddress physicalAddress : ℕ)
  | unmapPage (virtualAddress : ℕ)

/-- The effect of a call. -/
def Op.step (P : Platform) (root : ℕ) (s : State) : Op → State
  | .mapPage v pa user => kernelMapPage P s root v pa user
  | .mapMmio v pa => kernelMapMmio P s v pa
  | .unmapPage v => (kernelUnmapPage P s root v).2

/-- A partial map from page numbers to frames. -/
abbrev PageMap := ℕ → Option ℕ

/-- Bind a page that is not bound. -/
def PageMap.map (M : PageMap) (page frame : ℕ) : PageMap :=
  if (M page).isSome then M else Function.update M page (some frame)

/-- Remove the binding of a page. -/
def PageMap.unmap (M : PageMap) (page : ℕ) : PageMap := Function.update M page none

/-- What a call means for the map of pages. -/
def PageMap.step (M : PageMap) : Op → PageMap
  | .mapPage v pa _ => M.map (v / 4096) pa
  | .mapMmio v pa => M.map (v / 4096) pa
  | .unmapPage v => M.unmap (v / 4096)

/-- Bits 47 to 63 of the address agree. -/
def Canonical (v : ℕ) : Prop := v < 2 ^ 47 ∨ (2 ^ 64 - 2 ^ 47 ≤ v ∧ v < 2 ^ 64)

instance (v : ℕ) : Decidable (Canonical v) := inferInstanceAs (Decidable (_ ∨ _))

/-- A physical address that can be mapped: page-aligned and below `2 ^ 47`. -/
def Mappable (pa : ℕ) : Prop := pa % 4096 = 0 ∧ pa < 2 ^ 47

instance (pa : ℕ) : Decidable (Mappable pa) := inferInstanceAs (Decidable (_ ∧ _))

/-- The calls on the root: `KernelMapMmio` is one of them for `kernel_pml4` only. -/
def Op.Valid (P : Platform) (root : ℕ) : Op → Prop
  | .mapPage v pa _ => Canonical v ∧ Mappable pa
  | .mapMmio v pa => root = P.kernelPml4 ∧ Canonical v ∧ Mappable pa
  | .unmapPage v => Canonical v

instance (P : Platform) (root : ℕ) : (op : Op) → Decidable (op.Valid P root)
  | .mapPage _ _ _ => inferInstanceAs (Decidable (_ ∧ _))
  | .mapMmio _ _ => inferInstanceAs (Decidable (_ ∧ _ ∧ _))
  | .unmapPage v => inferInstanceAs (Decidable (Canonical v))

/-! ## Pages and paths -/

theorem land_511 (x : ℕ) : x &&& 0x1FF = x % 512 := Nat.and_two_pow_sub_one_eq_mod x 9

theorem pathOf_eq (v : ℕ) :
    pathOf v = [v / 2 ^ 39 % 512, v / 2 ^ 30 % 512, v / 2 ^ 21 % 512] := by
  simp only [pathOf, pml4Index, hpdIndex, lpdIndex, land_511, Nat.shiftRight_eq_div_pow]

theorem ptIndex_eq (v : ℕ) : ptIndex v = v / 2 ^ 12 % 512 := by
  simp only [ptIndex, land_511, Nat.shiftRight_eq_div_pow]

/-- Canonical addresses take the same path to the same entry iff they lie in one page. -/
theorem same_entry_iff {v w : ℕ} (hv : Canonical v) (hw : Canonical w) :
    pathOf w = pathOf v ∧ ptIndex w = ptIndex v ↔ w / 4096 = v / 4096 := by
  simp only [pathOf_eq, ptIndex_eq, List.cons.injEq, and_true]
  unfold Canonical at hv hw
  omega

/-! ## The refinement relation -/

/-- All slots of one root. -/
def View.single (root : ℕ) : View := ⟨{root}, fun _ => Set.univ⟩

theorem View.single_path (root v : ℕ) : (View.single root).Path root [pml4Index v] := by
  refine ⟨rfl, ?_, fun _ _ => trivial⟩
  simpa using pml4Index_lt v

/-- The tables form a tree and translate as the map says. -/
structure Refines (P : Platform) (root count : ℕ) (s : State) (M : PageMap) : Prop where
  forest : Forest P (View.single root) count s
  lookup : ∀ v, Canonical v → lookup P s.mem root v = M (v / 4096)

variable {P : Platform} {root count : ℕ} {s : State} {M : PageMap}

/-- **Map step**, for any frame of a page. -/
theorem Refines.bind (h : Refines P root count s M) (hroot : root ≠ 0) {v pa value : ℕ}
    (hv : Canonical v) (haligned : pa % 4096 = 0) (hbelow : pa < 2 ^ 63) (hval : Flags value)
    (hroom : (mapValue P s root v pa value).stackPosition ≤ count) :
    Refines P root count (mapValue P s root v pa value) (M.map (v / 4096) pa) := by
  have hpath := View.single_path root v
  have hword : pa < 2 ^ 64 := hbelow.trans (by decide)
  rcases mapValue_cases h.forest hpath hroot hval hword hroom with
    ⟨f, hlook, heq⟩ | ⟨hlook, s₁, pt, hgrows, hset⟩
  · -- the page is bound
    rw [h.lookup v hv] at hlook
    rw [heq, PageMap.map, hlook]
    exact h
  · rw [h.lookup v hv] at hlook
    have hbind : M.map (v / 4096) pa = Function.update M (v / 4096) (some pa) := by
      simp [PageMap.map, hlook]
    have hpres : present (pa ||| value) = true := present_lor (by omega) hval
    have hpage : (pa ||| value) &&& pageMask = pa :=
      land_pageMask haligned hbelow hval.lt
    refine ⟨hset.forest hgrows.forest hpath, fun w hw => ?_⟩
    have hwpath := View.single_path root w
    have hiff : (tableAt P s₁.mem root (pathOf w) = some pt ∧ ptIndex w = ptIndex v) ↔
        w / 4096 = v / 4096 := by
      rw [← same_entry_iff hv hw]
      refine and_congr_left fun _ => ⟨fun hw => ?_, fun heq => heq ▸ hset.table⟩
      exact hgrows.forest.path_unique (View.path_pathOf hwpath) le_rfl hw
        (View.path_pathOf hpath) le_rfl hset.table
    rw [hset.lookup_eq hgrows.forest hpath hwpath, hbind, hpres, hpage]
    simp only [hiff, if_true]
    by_cases hsame : w / 4096 = v / 4096
    · rw [if_pos hsame, hsame, Function.update_self]
    · rw [if_neg hsame, Function.update_of_ne hsame, hgrows.lookup hwpath, h.lookup w hw]

/-- **Map step.** -/
theorem Refines.map (h : Refines P root count s M) (hroot : root ≠ 0) {v pa value : ℕ}
    (hv : Canonical v) (hpa : Mappable pa) (hval : Flags value)
    (hroom : (mapValue P s root v pa value).stackPosition ≤ count) :
    Refines P root count (mapValue P s root v pa value) (M.map (v / 4096) pa) :=
  h.bind hroot hv hpa.1 (hpa.2.trans (by decide)) hval hroom

/-- **Unmap step**, with the value returned. -/
theorem Refines.unmap (h : Refines P root count s M) (hroot : root ≠ 0) {v : ℕ}
    (hv : Canonical v) :
    Refines P root count (kernelUnmapPage P s root v).2 (M.unmap (v / 4096)) ∧
      ((kernelUnmapPage P s root v).1 = 0 ↔ (M (v / 4096)).isSome) := by
  have hpath := View.single_path root v
  rcases kernelUnmapPage_spec (P := P) s hroot v with
    ⟨pt, f, hlook, heq, htable⟩ | ⟨hlook, hcode, hstate⟩
  · rw [h.lookup v hv] at hlook
    rw [heq, hlook]
    have hset : SetLeaf P root v 0 s { s with mem := setEntry s.mem pt (ptIndex v) 0 } pt :=
      ⟨htable, by decide, rfl⟩
    refine ⟨⟨hset.forest h.forest hpath, fun w hw => ?_⟩, by simp⟩
    have hwpath := View.single_path root w
    have hiff : (tableAt P s.mem root (pathOf w) = some pt ∧ ptIndex w = ptIndex v) ↔
        w / 4096 = v / 4096 := by
      rw [← same_entry_iff hv hw]
      refine and_congr_left fun _ => ⟨fun hw => ?_, fun heq => heq ▸ hset.table⟩
      exact h.forest.path_unique (View.path_pathOf hwpath) le_rfl hw
        (View.path_pathOf hpath) le_rfl hset.table
    rw [hset.lookup_eq h.forest hpath hwpath, PageMap.unmap, h.lookup w hw]
    simp only [hiff, present_zero]
    by_cases hsame : w / 4096 = v / 4096
    · rw [if_pos hsame, hsame, Function.update_self]
      rfl
    · rw [if_neg hsame, Function.update_of_ne hsame]
  · rw [h.lookup v hv] at hlook
    rw [hstate, hlook, PageMap.unmap, Function.update_eq_self_iff.mpr hlook.symm]
    exact ⟨h, by simpa using hcode.ne⟩

theorem flags_user (user : UInt8) : Flags (if user ≠ 0 then 7 else 3) := by
  split_ifs
  · exact ⟨by decide, by decide⟩
  · exact ⟨by decide, by decide⟩

theorem flags_mmio : Flags (0x10 ||| 0x8 ||| 0x3) := ⟨by decide, by decide⟩

/-- **Step lemma**: a call keeps tables and map in step. -/
theorem Refines.step (h : Refines P root count s M) (hroot : root ≠ 0) {op : Op}
    (hop : op.Valid P root) (hroom : (op.step P root s).stackPosition ≤ count) :
    Refines P root count (op.step P root s) (M.step op) := by
  cases op with
  | mapPage v pa user => exact h.map hroot hop.1 hop.2 (flags_user user) hroom
  | mapMmio v pa =>
    obtain ⟨rfl, hv, hpa⟩ := hop
    exact h.map hroot hv hpa flags_mmio hroom
  | unmapPage v => exact (h.unmap hroot hop).1

/-! ## Runs -/

theorem le_step_stackPosition (op : Op) :
    s.stackPosition ≤ (op.step P root s).stackPosition := by
  cases op with
  | mapPage v pa user => exact le_mapValue_stackPosition ..
  | mapMmio v pa => exact le_mapValue_stackPosition ..
  | unmapPage v =>
    simp only [Op.step, kernelUnmapPage]
    split_ifs <;> exact le_rfl

theorem le_run_stackPosition (ops : List Op) :
    s.stackPosition ≤ (run (Op.step P root) s ops).stackPosition := by
  induction ops generalizing s with
  | nil => exact le_rfl
  | cons op ops ih => exact (le_step_stackPosition op).trans ih

/-- **Run lemma**: from related states every run that the pool has frames for keeps tables and
map in step. -/
theorem Refines.run (h : Refines P root count s M) (hroot : root ≠ 0) {ops : List Op}
    (hops : ∀ op ∈ ops, op.Valid P root)
    (hroom : (run (Op.step P root) s ops).stackPosition ≤ count) :
    Refines P root count (Lib.run (Op.step P root) s ops) (Lib.run PageMap.step M ops) := by
  induction ops generalizing s M with
  | nil => exact h
  | cons op ops ih =>
    have hstep := h.step hroot (hops op (List.mem_cons_self ..))
      ((le_run_stackPosition ops).trans hroom)
    exact ih hstep (fun op' hop' => hops op' (List.mem_cons_of_mem op hop')) hroom

/-- A root without entries stands for the empty map. -/
theorem Refines.empty (hpool : Pool P count s)
    (hzero : ∀ i < 512, entry s.mem root i = 0)
    (hunused : ∀ k, s.stackPosition ≤ k → k < count → Apart root 4096 (frameAt P s k) 4096) :
    Refines P root count s (fun _ => none) := by
  have hnone : ∀ i q, i < 512 → tableAt P s.mem root (i :: q) = none := by
    intro i q hi
    have habsent : present (entry s.mem root i) = false := by rw [hzero i hi, present_zero]
    rw [tableAt, descend_cons, child_of_not_present habsent, Option.bind_none]
  have honly : ∀ {r q u}, (View.single root).Path r q → tableAt P s.mem r q = some u →
      q = [] ∧ u = root := by
    rintro r q u ⟨hr, hlt, -⟩ hu
    obtain rfl : r = root := hr
    cases q with
    | nil => exact ⟨rfl, (Option.some.inj hu).symm⟩
    | cons i q => simp [hnone i q (hlt i (by simp))] at hu
  refine ⟨⟨hpool, ?_, ?_, ?_⟩, fun v _ => ?_⟩
  · intro r r' p q t u hp _ ht hq _ hu
    obtain ⟨rfl, rfl⟩ := honly hp ht
    obtain ⟨rfl, rfl⟩ := honly hq hu
    exact .inl ⟨rfl, rfl⟩
  · intro r p t hp _ ht k hk hk'
    obtain ⟨-, rfl⟩ := honly hp ht
    exact hunused k hk hk'
  · intro r p t j hp _ ht hpres
    obtain ⟨-, rfl⟩ := honly hp.of_append ht
    rw [hzero j hp.last_lt, present_zero] at hpres
    exact absurd hpres (by decide)
  · rw [Mmu.lookup, pathOf, hnone _ _ (pml4Index_lt v), Option.bind_none]

/-- **Page tables refine a partial map**: from a root without entries, after any calls that
the pool has frames for, lookup succeeds on exactly the bound pages, with their frames, and
unmapping returns 0 on exactly these. -/
theorem pageTables_refine (hroot : root ≠ 0) (hpool : Pool P count s)
    (hzero : ∀ i < 512, entry s.mem root i = 0)
    (hunused : ∀ k, s.stackPosition ≤ k → k < count → Apart root 4096 (frameAt P s k) 4096)
    (ops : List Op) (hops : ∀ op ∈ ops, op.Valid P root)
    (hroom : (run (Op.step P root) s ops).stackPosition ≤ count)
    (v : ℕ) (hv : Canonical v) :
    Returns (kernelGetPhysicalAddress P (run (Op.step P root) s ops) root v)
      (run PageMap.step (fun _ => none) ops (v / 4096)) ∧
    ((kernelUnmapPage P (run (Op.step P root) s ops) root v).1 = 0 ↔
      (run PageMap.step (fun _ => none) ops (v / 4096)).isSome) := by
  have href := (Refines.empty hpool hzero hunused).run hroot hops hroom
  refine ⟨?_, (href.unmap hroot hv).2⟩
  rw [← href.lookup v hv]
  exact kernelGetPhysicalAddress_returns href.forest (View.single_path root v)

/-! ## A machine to run the functions on -/

/-- The HHDM offset and a place of `kernel_pml4` as the boot loader chooses them. -/
def bootPlatform : Platform where
  hhdmOffset := 0xFFFF800000000000
  kernelPml4 := 0xFFFFFFFF80200000
  hhdmOffset_lt := by decide
  kernelPml4_ne := by decide

/-- Zeroed memory and the frames from `0x100000` on. -/
def bootState : State := ⟨fun _ => 0, fun k => 0x100000 + 0x1000 * k, 0⟩

theorem bootState_pool : Pool bootPlatform 16 bootState where
  aligned k _ _ := by simp only [bootState]; omega
  below k _ hk := by simp only [bootState]; omega
  disjoint k _ hk := by
    have hall : ∀ k < 16, bootState.memList k &&& bootPlatform.hhdmOffset = 0 := by decide
    exact hall k hk
  distinct k l _ _ _ _ h := by simp only [bootState] at h; omega

theorem bootState_entry (i : ℕ) : entry bootState.mem bootPlatform.kernelPml4 i = 0 := by
  simp [entry, load64, load, bootState]

theorem bootState_unused (k : ℕ) (hk : k < 16) :
    Apart bootPlatform.kernelPml4 4096 (frameAt bootPlatform bootState k) 4096 := by
  simp only [Apart, frameAt, bootState, bootPlatform]
  omega

/-- A page mapped twice and then read in its middle, and its neighbour unmapped. -/
theorem pageTables_refine_boot :
    Returns (kernelGetPhysicalAddress bootPlatform
        (run (Op.step bootPlatform bootPlatform.kernelPml4) bootState
          [.mapPage 0x400000 0x7000 1, .mapMmio 0xFFFFE00000401000 0x9000,
            .mapPage 0x400000 0x8000 0, .unmapPage 0x401000])
        bootPlatform.kernelPml4 0x400ABC)
      (some 0x7000) ∧
    ((kernelUnmapPage bootPlatform
        (run (Op.step bootPlatform bootPlatform.kernelPml4) bootState
          [.mapPage 0x400000 0x7000 1, .mapMmio 0xFFFFE00000401000 0x9000,
            .mapPage 0x400000 0x8000 0, .unmapPage 0x401000])
        bootPlatform.kernelPml4 0x400ABC).1 = 0 ↔ true) :=
  pageTables_refine bootPlatform.kernelPml4_ne bootState_pool (fun i _ => bootState_entry i)
    (fun k _ => bootState_unused k) _ (by decide) (by decide) 0x400ABC (by decide)

end Cutesugar.Kernel.Mmu
