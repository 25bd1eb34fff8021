import Cutesugar.Kernel.Arch.KernelHalf
import Cutesugar.Kernel.Arch.UserAccess

/-!
# Slots of the root that are there from the start

A slot of the upper half that `kernel_pml4` has before the first new root is in every root, and no mapping
fills it again, whether or not the other slots stay coherent. So the access that ring 3 has to a page below such
a slot is the same in every root and does not change as long as the page is not unmapped.

- `SharedSlots`: the invariant, over any set of slots.
- `PageKept`: what becomes of one page.
- `SharedSlots.accessible`: both in every root.
-/

namespace Cutesugar.Kernel.Mmu

open Lib Lib.Memory

/-! ## The slots -/

/-- All slots of `kernel_pml4` and some of the roots returned. -/
def slotView (P : Platform) (S : Set ℕ) (roots : List ℕ) : View where
  roots := insert P.kernelPml4 {r | r ∈ roots}
  slots r := {i | r = P.kernelPml4 ∨ i ∈ S}

/-- **Shared slots**: they are present in `kernel_pml4`, and every root returned has them too. -/
structure SharedSlots (P : Platform) (S : Set ℕ) (count : ℕ) (s : KernelRun) : Prop where
  forest : Forest P (slotView P S s.roots) count s.mmu
  ne : ∀ root ∈ s.roots, root ≠ P.kernelPml4
  shared : ∀ root ∈ s.roots, ∀ i ∈ S, entry s.mmu.mem root i = entry s.mmu.mem P.kernelPml4 i
  present : ∀ i ∈ S, present (entry s.mmu.mem P.kernelPml4 i) = true

/-- One page under `kernel_pml4`: it is translated, and ring 3 has this access to it. -/
structure PageKept (P : Platform) (v : ℕ) (user : Bool) (s : KernelRun) : Prop where
  bound : (lookup P s.mmu.mem P.kernelPml4 v).isSome
  access : accessible P s.mmu.mem P.kernelPml4 v = user

/-- The call unmaps another page or none. -/
def KernelCall.Spares (v : ℕ) : KernelCall → Prop
  | .unmapPage w => ¬ (pathOf v = pathOf w ∧ ptIndex v = ptIndex w)
  | _ => True

variable {P : Platform} {S : Set ℕ} {count : ℕ} {s : KernelRun} {v : ℕ} {user : Bool}

theorem slotView_kernel {roots : List ℕ} {i : ℕ} (hi : i < 512) :
    (slotView P S roots).Path P.kernelPml4 [i] :=
  ⟨Set.mem_insert .., by simpa using hi, fun _ _ => .inl rfl⟩

theorem slotView_root {roots : List ℕ} {root i : ℕ} (hroot : root ∈ roots) (hi : i ∈ S) (hi' : i < 512) :
    (slotView P S roots).Path root [i] := by
  refine ⟨Set.mem_insert_of_mem _ hroot, by simpa using hi', fun j hj => ?_⟩
  obtain rfl : i = j := by simpa using hj
  exact .inr hi

theorem slotView_nil {roots : List ℕ} : (slotView P S roots).Path P.kernelPml4 [] :=
  ⟨Set.mem_insert .., by simp, by simp⟩

/-- Before the first root is returned. -/
theorem SharedSlots.start {mmu : State} (h : Forest P (View.single P.kernelPml4) count mmu)
    (hpresent : ∀ i ∈ S, Mmu.present (entry mmu.mem P.kernelPml4 i) = true) :
    SharedSlots P S count ⟨mmu, []⟩ where
  forest := h.mono fun r q hq => by
    obtain ⟨hr, hlt, -⟩ := hq
    refine ⟨?_, hlt, fun _ _ => trivial⟩
    simpa [slotView, View.single] using hr
  ne root hroot := absurd hroot List.not_mem_nil
  shared root hroot := absurd hroot List.not_mem_nil
  present := hpresent

/-- **The access is the same in every root.** -/
theorem SharedSlots.accessible (h : SharedSlots P S count s) (hpage : PageKept P v user s)
    (hv : pml4Index v ∈ S) {root : ℕ} (hroot : root = P.kernelPml4 ∨ root ∈ s.roots) :
    Mmu.accessible P s.mmu.mem root v = user := by
  rcases hroot with rfl | hroot
  · exact hpage.access
  · rw [← hpage.access]
    simp only [Mmu.accessible, pathOf, List.cons_append, userWalk, h.shared root hroot _ hv]

/-! ## Steps -/

/-- Entries are kept by a mapping, also where the page is translated already. -/
theorem mapValue_keeps {V : View} {m : State} {a w pa value : ℕ} (h : Forest P V count m)
    (ha : V.Path a [pml4Index w]) (hroot : a ≠ 0) (hval : Flags value) (hpa : pa < 2 ^ 64)
    (hroom : (mapValue P m a w pa value).stackPosition ≤ count) :
    KeepsEntries P V m (mapValue P m a w pa value) := by
  cases hlook : lookup P m.mem a w with
  | some f =>
    rw [mapValue_of_lookup hlook]
    exact fun _ _ _ _ _ _ _ _ _ => rfl
  | none =>
    have hword : pa ||| value < 2 ^ 64 := Nat.or_lt_two_pow hpa (hval.lt.trans (by decide))
    obtain ⟨n₁, n₂, n₃, L₁, L₂, L₃, habsent, hset⟩ := mapValue_levels h ha hroot hval hword hroom hlook
    have hkeep₃ := hset.keeps ((L₁.grows.trans ha L₂.grows).trans ha L₃.grows).forest ha habsent
    exact L₁.keeps.trans L₁.grows (L₂.keeps.trans L₂.grows (L₃.keeps.trans L₃.grows hkeep₃))

/-- A translated page stays translated. -/
theorem KeepsEntries.lookup_eq {V : View} {m m' : State} {a f : ℕ} (h : KeepsEntries P V m m')
    (ha : V.Path a [pml4Index v]) (hlook : lookup P m.mem a v = some f) : lookup P m'.mem a v = some f := by
  have hpath := View.path_pathOf ha
  have htable : tableAt P m'.mem a (pathOf v) = tableAt P m.mem a (pathOf v) := by
    refine descend_congr fun q j hpre u hu => child_congr ?_
    have hq := hpath.initial hpre
    have hlen := hpre.length_le
    rw [List.length_append, List.length_singleton] at hlen
    exact h hq.of_append (by have : (pathOf v).length = 3 := rfl; omega) hu hq.last_lt
      (present_of_lookup hlook (hpre.trans (List.prefix_append ..)) hu)
  rw [← hlook, lookup, lookup, htable]
  cases hpt : tableAt P m.mem a (pathOf v) with
  | none => rfl
  | some pt =>
    exact leaf_congr (h hpath le_rfl hpt (ptIndex_lt v) (present_of_lookup hlook List.prefix_rfl hpt))

/-- **New root step.** -/
theorem SharedSlots.newPageStructure (h : SharedSlots P S count s) (hS : ∀ i ∈ S, 256 ≤ i ∧ i < 512)
    (hpage : PageKept P v user s) {old : ℕ}
    (hroom : (s.step P (.newPageStructure old)).mmu.stackPosition ≤ count) :
    SharedSlots P S count (s.step P (.newPageStructure old)) ∧
      PageKept P v user (s.step P (.newPageStructure old)) := by
  have hlt : s.mmu.stackPosition < count := hroom
  have hnew := kernelNewPageStructure_spec h.forest.pool hlt old
  simp only [KernelRun.step]
  generalize (kernelNewPageStructure P s.mmu old).1 = F at hnew ⊢
  generalize (kernelNewPageStructure P s.mmu old).2 = mmu at hnew ⊢
  have hapart {root : ℕ} (hroot : (slotView P S s.roots).Path root []) : Apart root 4096 F 4096 :=
    hnew.isFrame ▸ h.forest.fresh hroot (by simp) rfl _ le_rfl hlt
  have hcopy := hnew.upper (hapart slotView_nil)
  have hFne : F ≠ P.kernelPml4 := fun heq => not_apart_self _ (heq ▸ hapart slotView_nil)
  have hsame {r : ℕ} (hr : (slotView P S s.roots).Path r []) {i : ℕ} (hi : i < 512) :
      entry mmu.mem r i = entry s.mmu.mem r i := hnew.entry_eq h.forest hlt hr (by simp) rfl hi
  have hentry : KeepsEntries P (slotView P S s.roots) s.mmu mmu := fun r q u j hq hlq hu hj _ =>
    hnew.entry_eq h.forest hlt hq hlq hu hj
  obtain ⟨f, hlook⟩ := Option.isSome_iff_exists.mp hpage.bound
  have hv : (slotView P S s.roots).Path P.kernelPml4 [pml4Index v] := slotView_kernel (pml4Index_lt v)
  refine ⟨⟨?_, ?_, ?_, ?_⟩, ⟨Option.isSome_iff_exists.mpr ⟨f, hentry.lookup_eq hv hlook⟩, ?_⟩⟩
  · refine hnew.forest (o := P.kernelPml4) h.forest hlt ?_ ?_
    · intro r q hq
      obtain ⟨hr, hlt, hslot⟩ := hq
      simp only [slotView, Set.mem_insert_iff, Set.mem_ofPred_eq, List.mem_cons] at hr hslot
      -- the shared slots of the new root are those of `kernel_pml4`, and its others are not in the view
      by_cases hrF : r = F
      · exact .inr ⟨hrF, .inr ⟨Set.mem_insert .., hlt, fun _ _ => .inl rfl⟩⟩
      · refine .inl ⟨?_, hlt, hslot⟩
        simpa [slotView, hrF] using hr
    · intro i _ hi
      obtain ⟨-, -, hslot⟩ := hi
      have hin : F = P.kernelPml4 ∨ i ∈ S := hslot i (by simp)
      obtain ⟨hlow, hhigh⟩ := hS i (hin.resolve_left hFne)
      exact hcopy i hlow hhigh
  · intro root hroot
    rcases List.mem_cons.mp hroot with rfl | hroot
    · exact hFne
    · exact h.ne root hroot
  · intro root hroot i hi
    obtain ⟨hlow, hhigh⟩ := hS i hi
    rcases List.mem_cons.mp hroot with rfl | hroot
    · rw [hcopy i hlow hhigh, hsame slotView_nil hhigh]
    · rw [hsame slotView_nil hhigh, hsame ((slotView_root hroot hi hhigh).initial List.nil_prefix) hhigh,
        h.shared root hroot i hi]
  · intro i hi
    rw [hsame slotView_nil (hS i hi).2]
    exact h.present i hi
  · rw [← hpage.access]
    exact hentry.accessible hv hlook

/-- **Mapping step.** -/
theorem SharedSlots.mapValue (h : SharedSlots P S count s) (hS : ∀ i ∈ S, 256 ≤ i ∧ i < 512)
    (hpage : PageKept P v user s) {w pa value : ℕ} (hval : Flags value) (hpa : pa < 2 ^ 64)
    (hroom : (mapValue P s.mmu P.kernelPml4 w pa value).stackPosition ≤ count) :
    SharedSlots P S count { s with mmu := mapValue P s.mmu P.kernelPml4 w pa value } ∧
      PageKept P v user { s with mmu := mapValue P s.mmu P.kernelPml4 w pa value } := by
  have hpath : (slotView P S s.roots).Path P.kernelPml4 [pml4Index w] := slotView_kernel (pml4Index_lt w)
  have hv : (slotView P S s.roots).Path P.kernelPml4 [pml4Index v] := slotView_kernel (pml4Index_lt v)
  have hkeeps := mapValue_keeps h.forest hpath P.kernelPml4_ne hval hpa hroom
  obtain ⟨f, hlook⟩ := Option.isSome_iff_exists.mp hpage.bound
  have hforest : Forest P (slotView P S s.roots) count (Mmu.mapValue P s.mmu P.kernelPml4 w pa value) := by
    rcases mapValue_cases h.forest hpath P.kernelPml4_ne hval hpa hroom with
      ⟨f, -, heq⟩ | ⟨-, s₁, pt, hgrows, hset⟩
    · rw [heq]
      exact h.forest
    · exact hset.forest hgrows.forest hpath
  have hslot {r i : ℕ} (hr : (slotView P S s.roots).Path r []) (hi : i < 512)
      (hpres : Mmu.present (entry s.mmu.mem r i) = true) :
      entry (Mmu.mapValue P s.mmu P.kernelPml4 w pa value).mem r i = entry s.mmu.mem r i :=
    hkeeps hr (by simp) rfl hi hpres
  refine ⟨⟨hforest, h.ne, fun root hroot i hi => ?_, fun i hi => ?_⟩,
    ⟨Option.isSome_iff_exists.mpr ⟨f, hkeeps.lookup_eq hv hlook⟩, ?_⟩⟩
  · have hpres := h.present i hi
    have hpres' := hpres
    rw [← h.shared root hroot i hi] at hpres'
    rw [hslot slotView_nil (hS i hi).2 hpres,
      hslot ((slotView_root hroot hi (hS i hi).2).initial List.nil_prefix) (hS i hi).2 hpres',
      h.shared root hroot i hi]
  · rw [hslot slotView_nil (hS i hi).2 (h.present i hi)]
    exact h.present i hi
  · rw [← hpage.access]
    exact hkeeps.accessible hv hlook

/-- **Unmapping step.** -/
theorem SharedSlots.unmapPage (h : SharedSlots P S count s) (hS : ∀ i ∈ S, 256 ≤ i ∧ i < 512)
    (hpage : PageKept P v user s) {w : ℕ} (hspares : ¬ (pathOf v = pathOf w ∧ ptIndex v = ptIndex w)) :
    SharedSlots P S count { s with mmu := (kernelUnmapPage P s.mmu P.kernelPml4 w).2 } ∧
      PageKept P v user { s with mmu := (kernelUnmapPage P s.mmu P.kernelPml4 w).2 } := by
  have hpath : (slotView P S s.roots).Path P.kernelPml4 [pml4Index w] := slotView_kernel (pml4Index_lt w)
  have hv : (slotView P S s.roots).Path P.kernelPml4 [pml4Index v] := slotView_kernel (pml4Index_lt v)
  rcases kernelUnmapPage_spec (P := P) s.mmu P.kernelPml4_ne w with
    ⟨pt, f, -, heq, htable⟩ | ⟨-, -, hstate⟩
  · have hset : SetLeaf P P.kernelPml4 w 0 s.mmu (kernelUnmapPage P s.mmu P.kernelPml4 w).2 pt :=
      ⟨htable, by decide, by rw [heq]⟩
    have hslot {r i : ℕ} (hr : (slotView P S s.roots).Path r []) (hi : i < 512) :
        entry (kernelUnmapPage P s.mmu P.kernelPml4 w).2.mem r i = entry s.mmu.mem r i :=
      hset.entry_inner h.forest hpath hr (by simp) rfl hi
    have hlook : lookup P (kernelUnmapPage P s.mmu P.kernelPml4 w).2.mem P.kernelPml4 v =
        lookup P s.mmu.mem P.kernelPml4 v := by
      rw [hset.lookup_eq h.forest hpath hv, if_neg]
      rintro ⟨hat, hidx⟩
      exact hspares ⟨h.forest.path_unique (View.path_pathOf hv) le_rfl hat (View.path_pathOf hpath) le_rfl
        hset.table, hidx⟩
    refine ⟨⟨hset.forest h.forest hpath, h.ne, fun root hroot i hi => ?_, fun i hi => ?_⟩, ⟨?_, ?_⟩⟩
    · rw [hslot slotView_nil (hS i hi).2,
        hslot ((slotView_root hroot hi (hS i hi).2).initial List.nil_prefix) (hS i hi).2,
        h.shared root hroot i hi]
    · rw [hslot slotView_nil (hS i hi).2]
      exact h.present i hi
    · rw [hlook]
      exact hpage.bound
    · rw [← hpage.access]
      exact hset.accessible h.forest hpath hv hspares
  · rw [hstate]
    exact ⟨h, hpage⟩

/-- **Step lemma.** -/
theorem SharedSlots.step (h : SharedSlots P S count s) (hS : ∀ i ∈ S, 256 ≤ i ∧ i < 512)
    (hpage : PageKept P v user s) {c : KernelCall} (hposs : s.Possible P count c) (hspares : c.Spares v) :
    SharedSlots P S count (s.step P c) ∧ PageKept P v user (s.step P c) := by
  obtain ⟨hword, hroom⟩ := hposs
  cases c with
  | newPageStructure old => exact h.newPageStructure hS hpage hroom
  | mapMmio w pa => exact h.mapValue hS hpage flags_mmio hword hroom
  | mapPage w pa flag => exact h.mapValue hS hpage (flags_user flag) hword hroom
  | unmapPage w => exact h.unmapPage hS hpage hspares

/-- **Run lemma**: in every state of a run that does not unmap the page, every root gives ring 3 the access to it
that it had under `kernel_pml4` before. -/
theorem SharedSlots.everywhere (h : SharedSlots P S count s) (hS : ∀ i ∈ S, 256 ≤ i ∧ i < 512)
    (hpage : PageKept P v user s) (hv : pml4Index v ∈ S) {calls : List KernelCall}
    (hposs : Along (KernelRun.step P) (KernelRun.Possible P count) s calls)
    (hspares : ∀ c ∈ calls, c.Spares v) :
    Everywhere (KernelRun.step P) (fun s => ∀ root, root = P.kernelPml4 ∨ root ∈ s.roots →
      Mmu.accessible P s.mmu.mem root v = user) s calls := by
  have hrun : Along (KernelRun.step P) (fun s c => s.Possible P count c ∧ c.Spares v) s calls :=
    along_and.mpr ⟨hposs, along_const.mpr hspares⟩
  have hstep : ∀ (s : KernelRun) (c : KernelCall), SharedSlots P S count s ∧ PageKept P v user s →
      s.Possible P count c ∧ c.Spares v →
        SharedSlots P S count (s.step P c) ∧ PageKept P v user (s.step P c) :=
    fun s c hs hc => hs.1.step hS hs.2 hc.1 hc.2
  exact hrun.everywhere ⟨h, hpage⟩ hstep fun s hs root hroot => hs.1.accessible hs.2 hv hroot

end Cutesugar.Kernel.Mmu
