import Cutesugar.Kernel.Arch.NewRoot
import Cutesugar.Kernel.Arch.PageMap

/-!
# Isolation of a cloned address space

`KernelNewPageStructure(r1)` copies the entries of `r1` itself and nothing below them, so the
clone and its parent share every table under a slot that was present. Under the other slots
each of the two roots grows tables of its own.

The calls that the other root cannot see are therefore those under a slot that was absent at
the clone, and those that have no effect at all.

## Structure

- `cloneStep`: calls through one of the two roots, interleaved in any order.
- `Isolated`, `Harmless`: the property of a call, and the condition on it.
- `Cloned`: the invariant of the two roots, and what it says about one call.
-/

namespace Cutesugar.Kernel.Mmu

open Lib Lib.Memory

/-! ## Runs through two roots -/

/-- The root that a call of the given side goes through: the clone or its parent. -/
def side (r₁ r₂ : ℕ) (clone : Bool) : ℕ := if clone then r₂ else r₁

/-- A call through one of the two roots. -/
def cloneStep (P : Platform) (r₁ r₂ : ℕ) (s : State) (e : Bool × Op) : State :=
  e.2.step P (side r₁ r₂ e.1) s

/-- `KernelMapPage` and `KernelUnmapPage` on a lower-half address. -/
def Op.Lower : Op → Prop
  | .mapPage v pa _ => pml4Index v < 256 ∧ pa < 2 ^ 64
  | .mapMmio _ _ => False
  | .unmapPage v => pml4Index v < 256

instance : (op : Op) → Decidable op.Lower
  | .mapPage _ _ _ => inferInstanceAs (Decidable (_ ∧ _))
  | .mapMmio _ _ => .isFalse id
  | .unmapPage v => inferInstanceAs (Decidable (pml4Index v < 256))

/-- The pool has the frames the call takes. -/
def CloneRoom (P : Platform) (count r₁ r₂ : ℕ) (s : State) (e : Bool × Op) : Prop :=
  (cloneStep P r₁ r₂ s e).stackPosition ≤ count

instance (P : Platform) (count r₁ r₂ : ℕ) (s : State) (e : Bool × Op) :
    Decidable (CloneRoom P count r₁ r₂ s e) :=
  inferInstanceAs (Decidable (_ ≤ _))

/-- The call is one on the lower half and the pool has the frames it takes. -/
def ClonePossible (P : Platform) (count r₁ r₂ : ℕ) (s : State) (e : Bool × Op) : Prop :=
  e.2.Lower ∧ CloneRoom P count r₁ r₂ s e

/-- The translations of the lower half through a root. -/
def lowerTranslations (P : Platform) (root : ℕ) (s : State) : {v // pml4Index v < 256} → ℕ :=
  fun v => kernelGetPhysicalAddress P s root v

/-- The call changes no lower-half translation through the other root. -/
def Isolated (P : Platform) (r₁ r₂ : ℕ) (s : State) (e : Bool × Op) : Prop :=
  lowerTranslations P (side r₁ r₂ !e.1) (cloneStep P r₁ r₂ s e) =
    lowerTranslations P (side r₁ r₂ !e.1) s

/-- `KernelGetPhysicalAddress` returns no error code. -/
def Translated (P : Platform) (s : State) (root v : ℕ) : Prop :=
  kernelGetPhysicalAddress P s root v < 2 ^ 64 - 4

instance (P : Platform) (s : State) (root v : ℕ) : Decidable (Translated P s root v) :=
  inferInstanceAs (Decidable (_ < _))

/-- The call is under a slot that was absent when `r₁` was cloned in state `s₀`, or it maps a
translated address or unmaps one that is not. -/
def Harmless (P : Platform) (r₁ r₂ : ℕ) (s₀ s : State) (e : Bool × Op) : Prop :=
  match e.2 with
  | .mapPage v _ _ =>
    present (entry s₀.mem r₁ (pml4Index v)) = false ∨ Translated P s (side r₁ r₂ e.1) v
  | .mapMmio _ _ => True
  | .unmapPage v =>
    present (entry s₀.mem r₁ (pml4Index v)) = false ∨ ¬ Translated P s (side r₁ r₂ e.1) v

instance (P : Platform) (r₁ r₂ : ℕ) (s₀ s : State) :
    (e : Bool × Op) → Decidable (Harmless P r₁ r₂ s₀ s e)
  | (_, .mapPage _ _ _) => inferInstanceAs (Decidable (_ ∨ _))
  | (_, .mapMmio _ _) => .isTrue trivial
  | (_, .unmapPage _) => inferInstanceAs (Decidable (_ ∨ _))

/-! ## The invariant -/

/-- The lower half of some roots. -/
def lowerView (roots : Set ℕ) : View := ⟨roots, fun _ => {i | i < 256}⟩

theorem lowerView_path {roots : Set ℕ} {r v : ℕ} (hr : r ∈ roots) (hv : pml4Index v < 256) :
    (lowerView roots).Path r [pml4Index v] := by
  refine ⟨hr, by simpa using pml4Index_lt v, fun i hi => ?_⟩
  obtain rfl : pml4Index v = i := by simpa using hi
  exact hv

/-- Two roots share the tables below the slots `S` and no other table of the lower half. -/
structure Cloned (P : Platform) (count : ℕ) (S : ℕ → Prop) (a b : ℕ) (s : State) : Prop where
  forest : Forest P (lowerView {a, b}) count s
  ne : a ≠ b
  left_ne : a ≠ 0
  right_ne : b ≠ 0
  shared : ∀ i < 256, S i → present (entry s.mem a i) = true ∧ entry s.mem b i = entry s.mem a i
  own : ∀ {i q t}, ¬ S i → (lowerView {a, b}).Path a (i :: q) → (i :: q).length ≤ 3 →
    tableAt P s.mem a (i :: q) = some t → tableAt P s.mem b (i :: q) ≠ some t

variable {P : Platform} {count : ℕ} {S : ℕ → Prop} {a b : ℕ} {s s' : State}

theorem Cloned.symm (h : Cloned P count S a b s) : Cloned P count S b a s where
  forest := Set.pair_comm a b ▸ h.forest
  ne := h.ne.symm
  left_ne := h.right_ne
  right_ne := h.left_ne
  shared i hi hS := by
    obtain ⟨hpres, heq⟩ := h.shared i hi hS
    exact ⟨heq ▸ hpres, heq.symm⟩
  own hS hq hlq hb ha := h.own hS ⟨Set.mem_insert .., hq.2⟩ hlq ha hb

/-- Both roots see the same tables below a shared slot. -/
theorem Cloned.lookup_eq (h : Cloned P count S a b s) {v : ℕ} (hv : pml4Index v < 256)
    (hS : S (pml4Index v)) : lookup P s.mem b v = lookup P s.mem a v :=
  lookup_congr_root (h.shared _ hv hS).2

/-- A table of `b` that a step through slot `i` of `a` can change lies below a shared slot. -/
theorem Cloned.frame (h : Cloned P count S a b s) {i : ℕ}
    (hframe : Frame P (lowerView {a, b}) a i s s') {j k u : ℕ} {q : List ℕ}
    (hq : (lowerView {a, b}).Path b (j :: q)) (hlq : (j :: q).length ≤ 3)
    (hu : tableAt P s.mem b (j :: q) = some u) (hk : k < 512) (hS : j = i → ¬ S j) :
    entry s'.mem u k = entry s.mem u k := by
  refine hframe hq hlq hu hk ?_
  rintro ⟨hau, hhead⟩
  have hji : j = i := hhead j (by simp)
  exact h.own (hS hji) ⟨Set.mem_insert .., hq.2⟩ hlq hau hu

/-- The root `b` itself is out of reach of a step through `a`. -/
theorem Cloned.frame_root (h : Cloned P count S a b s) {i k : ℕ}
    (hframe : Frame P (lowerView {a, b}) a i s s') (hk : k < 512) :
    entry s'.mem b k = entry s.mem b k := by
  have hb : (lowerView {a, b}).Path b [] := ⟨Set.mem_insert_of_mem _ rfl, by simp, by simp⟩
  refine hframe hb (by simp) rfl hk ?_
  rintro ⟨hab, -⟩
  exact h.ne (Option.some.inj hab)

/-- A step through a slot of `a` that is not shared leaves all translations through `b` alone. -/
theorem Cloned.unchanged (h : Cloned P count S a b s) {i : ℕ}
    (hframe : Frame P (lowerView {a, b}) a i s s') (hi : ¬ S i) :
    lowerTranslations P b s' = lowerTranslations P b s := by
  funext ⟨w, hw⟩
  have hpath : (lowerView {a, b}).Path b [pml4Index w] :=
    lowerView_path (Set.mem_insert_of_mem _ rfl) hw
  refine kernelGetPhysicalAddress_congr h.forest hpath fun q u k hq hu hk => ?_
  have hqpath := (View.path_pathOf hpath).initial hq
  have hlq : q.length ≤ 3 := hq.length_le
  cases q with
  | nil =>
    obtain rfl : b = u := Option.some.inj hu
    exact h.frame_root hframe hk
  | cons j q => exact h.frame hframe hqpath hlq hu hk fun hji => hji ▸ hi

/-- Below a slot that is not shared a step through `a` gives `b` no table and takes none. -/
theorem Cloned.tableAt_eq (h : Cloned P count S a b s) {i : ℕ}
    (hframe : Frame P (lowerView {a, b}) a i s s') {j : ℕ} {q : List ℕ}
    (hq : (lowerView {a, b}).Path b (j :: q)) (hlq : (j :: q).length ≤ 3) (hS : ¬ S j) :
    tableAt P s'.mem b (j :: q) = tableAt P s.mem b (j :: q) := by
  refine descend_congr fun p k hpre u hu => child_congr ?_
  have hpath := hq.initial hpre
  have hlen : (p ++ [k]).length ≤ (j :: q).length := hpre.length_le
  rw [List.length_append, List.length_singleton] at hlen
  cases p with
  | nil =>
    obtain rfl : b = u := Option.some.inj hu
    exact h.frame_root hframe hpath.last_lt
  | cons j' p =>
    obtain rfl : j' = j := by
      obtain ⟨rest, hrest⟩ := hpre
      simpa using congrArg List.head? hrest
    exact h.frame hframe hpath.of_append (by omega) hu hpath.last_lt fun _ => hS

/-! ## Steps through one root -/

/-- Growing tables of `a` keeps the sharing as it is. -/
theorem Cloned.grows (h : Cloned P count S a b s) {i : ℕ}
    (hgrows : Grows P (lowerView {a, b}) count a i s s') : Cloned P count S a b s' := by
  refine { forest := hgrows.forest, ne := h.ne, left_ne := h.left_ne, right_ne := h.right_ne,
           shared := ?_, own := ?_ }
  · intro j hj hS
    obtain ⟨hpres, heq⟩ := h.shared j hj hS
    have hslot {r : ℕ} (hr : r ∈ ({a, b} : Set ℕ)) : (lowerView {a, b}).Path r [j] := by
      refine ⟨hr, by simpa using (by omega : j < 512), fun k hk => ?_⟩
      obtain rfl : j = k := by simpa using hk
      exact hj
    rw [hgrows.slots (hslot (Set.mem_insert ..)) fun _ _ => hpres,
      hgrows.slots (hslot (Set.mem_insert_of_mem _ rfl)) fun hba => absurd hba.symm h.ne]
    exact ⟨hpres, heq⟩
  · intro j q t hS hq hlq ha hb
    have hqb : (lowerView {a, b}).Path b (j :: q) := ⟨Set.mem_insert_of_mem _ rfl, hq.2⟩
    rw [h.tableAt_eq hgrows.frame hqb hlq hS] at hb
    rcases hgrows.new hq hlq ha with ha | hnew
    · exact h.own hS hq hlq ha hb
    · exact hnew b _ hqb hlq hb

/-- Writing an entry of a last table keeps the sharing as it is. -/
theorem Cloned.setLeaf (h : Cloned P count S a b s) {v e pt : ℕ} (hv : pml4Index v < 256)
    (hset : SetLeaf P a v e s s' pt) : Cloned P count S a b s' := by
  have hpath : (lowerView {a, b}).Path a [pml4Index v] := lowerView_path (Set.mem_insert ..) hv
  refine { forest := hset.forest h.forest hpath, ne := h.ne, left_ne := h.left_ne,
           right_ne := h.right_ne, shared := ?_, own := ?_ }
  · intro j hj hS
    have hroot {r : ℕ} (hr : r ∈ ({a, b} : Set ℕ)) : entry s'.mem r j = entry s.mem r j :=
      hset.entry_inner (q := []) h.forest hpath ⟨hr, by simp, by simp⟩ (by simp) rfl (by omega)
    rw [hroot (Set.mem_insert ..), hroot (Set.mem_insert_of_mem _ rfl)]
    exact h.shared j hj hS
  · intro j q t hS hq hlq ha hb
    rw [hset.tableAt_eq h.forest hpath hq hlq] at ha
    rw [hset.tableAt_eq h.forest hpath ⟨Set.mem_insert_of_mem _ rfl, hq.2⟩ hlq] at hb
    exact h.own hS hq hlq ha hb

/-- A translation that came or went is seen by the reader. -/
theorem Returns.ne_of_isSome_ne {x y : ℕ} {o o' : Option ℕ} (h : Returns x o)
    (h' : Returns y o') (ho : ∀ f ∈ o, f < 2 ^ 63) (ho' : ∀ f ∈ o', f < 2 ^ 63)
    (hne : o.isSome ≠ o'.isSome) : x ≠ y := by
  rintro rfl
  cases o with
  | none =>
    cases o' with
    | none => exact hne rfl
    | some f =>
      have := ho' f rfl
      simp only [Returns] at h h'
      omega
  | some f =>
    cases o' with
    | none =>
      have := ho f rfl
      simp only [Returns] at h h'
      omega
    | some f' => exact hne rfl

theorem lookup_lt {m : Memory} {r v : ℕ} : ∀ f ∈ lookup P m r v, f < 2 ^ 63 :=
  fun _ hf => (lookup_mod hf).2

theorem Cloned.translated_iff (h : Cloned P count S a b s) {v : ℕ} (hv : pml4Index v < 256) :
    Translated P s a v ↔ (lookup P s.mem a v).isSome := by
  have hreturns := kernelGetPhysicalAddress_returns h.forest
    (lowerView_path (r := a) (Set.mem_insert ..) hv)
  rw [Translated]
  cases hlook : lookup P s.mem a v with
  | none =>
    rw [hlook] at hreturns
    simp only [Option.isSome_none, Bool.false_eq_true, iff_false, not_lt]
    exact hreturns.1
  | some f =>
    have := (lookup_mod hlook).2
    rw [hlook] at hreturns
    simp only [Returns] at hreturns
    simp only [Option.isSome_some, iff_true]
    omega

/-- A translation through `a` that comes or goes below a shared slot does so through `b`. -/
theorem Cloned.visible (h : Cloned P count S a b s) (h' : Cloned P count S a b s') {v : ℕ}
    (hv : pml4Index v < 256) (hS : S (pml4Index v))
    (hne : (lookup P s'.mem a v).isSome ≠ (lookup P s.mem a v).isSome) :
    lowerTranslations P b s' ≠ lowerTranslations P b s := by
  intro heq
  have hpath : (lowerView {a, b}).Path b [pml4Index v] :=
    lowerView_path (Set.mem_insert_of_mem _ rfl) hv
  have hreturns := kernelGetPhysicalAddress_returns h.forest hpath
  have hreturns' := kernelGetPhysicalAddress_returns h'.forest hpath
  rw [← h.lookup_eq hv hS, ← h'.lookup_eq hv hS] at hne
  exact hreturns'.ne_of_isSome_ne hreturns lookup_lt lookup_lt hne (congrFun heq ⟨v, hv⟩)

/-- **Map step**: sharing stays as it is, and `b` sees nothing of the mapping exactly when the
slot is not shared or the address was translated. -/
theorem Cloned.map (h : Cloned P count S a b s) {v pa value : ℕ} (hv : pml4Index v < 256)
    (hpa : pa < 2 ^ 64) (hval : Flags value)
    (hroom : (mapValue P s a v pa value).stackPosition ≤ count) :
    Cloned P count S a b (mapValue P s a v pa value) ∧
      (lowerTranslations P b (mapValue P s a v pa value) = lowerTranslations P b s ↔
        ¬ S (pml4Index v) ∨ Translated P s a v) := by
  have hpath : (lowerView {a, b}).Path a [pml4Index v] := lowerView_path (Set.mem_insert ..) hv
  rw [h.translated_iff hv]
  rcases mapValue_cases h.forest hpath h.left_ne hval hpa hroom with
    ⟨f, hlook, heq⟩ | ⟨hlook, s₁, pt, hgrows, hset⟩
  · rw [heq, hlook]
    exact ⟨h, by simp⟩
  · have h₁ := h.grows hgrows
    have h₂ := h₁.setLeaf hv hset
    refine ⟨h₂, ?_⟩
    simp only [hlook, Option.isSome_none, Bool.false_eq_true, or_false]
    constructor
    · intro heq hS
      refine h.visible h₂ hv hS ?_ heq
      rw [hset.lookup_eq hgrows.forest hpath hpath, if_pos ⟨hset.table, rfl⟩, hlook]
      have hpres : present (pa ||| value) = true := by
        rw [present_iff, Nat.or_mod_two_eq_one]
        exact .inr hval.odd
      simp [hpres]
    · intro hS
      rw [h₁.unchanged (hset.frame hgrows.forest hpath) hS, h.unchanged hgrows.frame hS]

/-- **Unmap step.** -/
theorem Cloned.unmap (h : Cloned P count S a b s) {v : ℕ} (hv : pml4Index v < 256) :
    Cloned P count S a b (kernelUnmapPage P s a v).2 ∧
      (lowerTranslations P b (kernelUnmapPage P s a v).2 = lowerTranslations P b s ↔
        ¬ S (pml4Index v) ∨ ¬ Translated P s a v) := by
  have hpath : (lowerView {a, b}).Path a [pml4Index v] := lowerView_path (Set.mem_insert ..) hv
  rw [h.translated_iff hv]
  rcases kernelUnmapPage_spec (P := P) s h.left_ne v with
    ⟨pt, f, hlook, heq, htable⟩ | ⟨hlook, -, hstate⟩
  · have hset : SetLeaf P a v 0 s (kernelUnmapPage P s a v).2 pt :=
      ⟨htable, by decide, by rw [heq]⟩
    have h₂ := h.setLeaf hv hset
    refine ⟨h₂, ?_⟩
    simp only [hlook, Option.isSome_some, not_true, or_false]
    constructor
    · intro heq hS
      refine h.visible h₂ hv hS ?_ heq
      rw [hset.lookup_eq h.forest hpath hpath, if_pos ⟨hset.table, rfl⟩, hlook, present_zero]
      simp
    · exact h.unchanged (hset.frame h.forest hpath)
  · rw [hstate, hlook]
    exact ⟨h, by simp⟩

/-! ## Steps through either root -/

section Runs

variable {r₁ r₂ : ℕ} {s₀ : State}

/-- The two roots in the order of the side a call goes through. -/
theorem Cloned.side (h : Cloned P count S r₁ r₂ s) (clone : Bool) :
    Cloned P count S (side r₁ r₂ clone) (side r₁ r₂ !clone) s := by
  cases clone with
  | false => exact h
  | true => exact h.symm

/-- **Step lemma**: every possible call keeps the invariant, and it is isolated exactly when it
is harmless. -/
theorem Cloned.step (h : Cloned P count (fun i => present (entry s₀.mem r₁ i) = true) r₁ r₂ s)
    {e : Bool × Op} (hposs : ClonePossible P count r₁ r₂ s e) :
    Cloned P count (fun i => present (entry s₀.mem r₁ i) = true) r₁ r₂ (cloneStep P r₁ r₂ s e) ∧
      (Isolated P r₁ r₂ s e ↔ Harmless P r₁ r₂ s₀ s e) := by
  obtain ⟨clone, op⟩ := e
  obtain ⟨hlower, hroom⟩ := hposs
  have hside := h.side clone
  have hback {s' : State} (h' : Cloned P count (fun i => present (entry s₀.mem r₁ i) = true)
      (Mmu.side r₁ r₂ clone) (Mmu.side r₁ r₂ !clone) s') :
      Cloned P count (fun i => present (entry s₀.mem r₁ i) = true) r₁ r₂ s' := by
    cases clone with
    | false => exact h'
    | true => exact h'.symm
  cases op with
  | mapPage v pa user =>
    obtain ⟨hkeep, hiff⟩ := hside.map hlower.1 hlower.2 (flags_user user) hroom
    refine ⟨hback hkeep, ?_⟩
    rw [Bool.not_eq_true] at hiff
    exact hiff
  | mapMmio v pa => exact absurd hlower id
  | unmapPage v =>
    obtain ⟨hkeep, hiff⟩ := hside.unmap hlower
    refine ⟨hback hkeep, ?_⟩
    rw [Bool.not_eq_true] at hiff
    exact hiff

/-- A frame is not accessed at address 0 where the direct map starts above it. -/
theorem frameAt_ne_zero (hoffset : P.hhdmOffset ≠ 0) (k : ℕ) : frameAt P s k ≠ 0 := by
  unfold frameAt
  omega

/-- Cloning a root whose lower half is a tree shares the tables below its present slots. -/
theorem Cloned.start (hoffset : P.hhdmOffset ≠ 0) (hforest : Forest P (lowerView {r₁}) count s)
    (hroot : r₁ ≠ 0) (hroom : s.stackPosition < count) :
    Cloned P count (fun i => present (entry (kernelNewPageStructure P s r₁).2.mem r₁ i) = true)
      r₁ (kernelNewPageStructure P s r₁).1 (kernelNewPageStructure P s r₁).2 := by
  have hspec := kernelNewPageStructure_spec hforest.pool hroom r₁
  have hnew : (kernelNewPageStructure P s r₁).1 ≠ 0 :=
    hspec.isFrame ▸ frameAt_ne_zero hoffset _
  generalize (kernelNewPageStructure P s r₁).1 = r₂ at hspec hnew ⊢
  generalize (kernelNewPageStructure P s r₁).2 = s' at hspec ⊢
  have hrootpath : (lowerView {r₁}).Path r₁ [] := ⟨rfl, by simp, by simp⟩
  have hapart : Apart r₁ 4096 r₂ 4096 :=
    hspec.isFrame ▸ hforest.fresh hrootpath (by simp) rfl _ le_rfl hroom
  have hne : r₁ ≠ r₂ := fun heq => not_apart_self _ (heq ▸ hapart)
  have hcopy := hspec.lower hroot hapart
  have hkeep {i : ℕ} (hi : i < 512) : entry s'.mem r₁ i = entry s.mem r₁ i :=
    hspec.frame r₁ i hi hapart
  refine { forest := ?_, ne := hne, left_ne := hroot, right_ne := hnew, shared := ?_, own := ?_ }
  · refine hspec.forest (o := r₁) hforest hroom ?_ fun i hi _ => hcopy i (hi.2.2 i (by simp))
    rintro r q ⟨hr, hrest⟩
    rcases hr with rfl | hr
    · exact .inl ⟨rfl, hrest⟩
    · exact .inr ⟨hr, .inr ⟨rfl, hrest⟩⟩
  · intro i hi hpres
    exact ⟨hpres, by rw [hcopy i hi, hkeep (by omega)]⟩
  · intro i q t hS hq hlq ht
    -- an absent slot leads nowhere
    rw [tableAt, descend_cons, child_of_not_present (Bool.eq_false_iff.mpr hS)] at ht
    exact absurd ht (by simp)

/-! ## Whole runs -/

/-- Along a run of possible calls, isolation is harmlessness. -/
theorem clone_isolated_of_room (hoffset : P.hhdmOffset ≠ 0)
    (hforest : Forest P (lowerView {r₁}) count s) (hroot : r₁ ≠ 0)
    (hnew : kernelNewPageStructure P s r₁ = (r₂, s₀)) (hroom : s.stackPosition < count)
    {es : List (Bool × Op)}
    (hposs : Along (cloneStep P r₁ r₂) (ClonePossible P count r₁ r₂) s₀ es) :
    (Along (cloneStep P r₁ r₂) (Isolated P r₁ r₂) s₀ es ↔
      Along (cloneStep P r₁ r₂) (Harmless P r₁ r₂ s₀) s₀ es) ∧
    ∀ clone, (∀ e ∈ es, e.1 = clone) →
      (Everywhere (cloneStep P r₁ r₂) (fun s' => lowerTranslations P (side r₁ r₂ !clone) s' =
          lowerTranslations P (side r₁ r₂ !clone) s₀) s₀ es ↔
        Along (cloneStep P r₁ r₂) (Harmless P r₁ r₂ s₀) s₀ es) := by
  have hstart := Cloned.start hoffset hforest hroot hroom
  rw [hnew] at hstart
  refine ⟨?_, fun clone hside => ?_⟩
  · exact along_iff_of_invariant hposs hstart (fun s e h hc => (h.step hc).1)
      fun s e h hc => (h.step hc).2
  · rw [everywhere_eq_iff_along (lowerTranslations P (side r₁ r₂ !clone))]
    refine along_iff_of_invariant (along_and.mpr ⟨hposs, along_const.mpr hside⟩) hstart
      (fun s e h hc => (h.step hc.1).1) fun s e h hc => ?_
    have hiff := (h.step hc.1).2
    rw [Isolated, hc.2] at hiff
    exact hiff

/-- **Isolation of clones**, for `r₁` with a tree of tables in its lower half and its clone. In a
run through both roots in which the pool has the frames for the clone and for every call, and
every call is harmless, no call changes a translation through the other root; and where all calls
go through one root, the translations through the other are those of the clone in every state.
As long as the pool has the frames, both hold only where every call is harmless. -/
theorem clone_isolated_iff (hoffset : P.hhdmOffset ≠ 0) (hforest : Forest P (lowerView {r₁}) count s)
    (hroot : r₁ ≠ 0) (hnew : kernelNewPageStructure P s r₁ = (r₂, s₀)) (es : List (Bool × Op))
    (hlower : ∀ e ∈ es, e.2.Lower) :
    (s.stackPosition < count ∧ Along (cloneStep P r₁ r₂)
        (fun s e => CloneRoom P count r₁ r₂ s e ∧ Harmless P r₁ r₂ s₀ s e) s₀ es →
      Along (cloneStep P r₁ r₂) (Isolated P r₁ r₂) s₀ es ∧
      ∀ clone, (∀ e ∈ es, e.1 = clone) →
        Everywhere (cloneStep P r₁ r₂) (fun s' => lowerTranslations P (side r₁ r₂ !clone) s' =
          lowerTranslations P (side r₁ r₂ !clone) s₀) s₀ es) ∧
    (s.stackPosition < count ∧ Along (cloneStep P r₁ r₂) (CloneRoom P count r₁ r₂) s₀ es →
      (Along (cloneStep P r₁ r₂) (Isolated P r₁ r₂) s₀ es ↔
        Along (cloneStep P r₁ r₂) (Harmless P r₁ r₂ s₀) s₀ es) ∧
      ∀ clone, (∀ e ∈ es, e.1 = clone) →
        (Everywhere (cloneStep P r₁ r₂) (fun s' => lowerTranslations P (side r₁ r₂ !clone) s' =
            lowerTranslations P (side r₁ r₂ !clone) s₀) s₀ es ↔
          Along (cloneStep P r₁ r₂) (Harmless P r₁ r₂ s₀) s₀ es)) := by
  have hexact (hroom : s.stackPosition < count)
      (halong : Along (cloneStep P r₁ r₂) (CloneRoom P count r₁ r₂) s₀ es) :=
    clone_isolated_of_room hoffset hforest hroot hnew hroom
      (along_and.mpr ⟨along_const.mpr hlower, halong⟩)
  refine ⟨?_, fun h => hexact h.1 h.2⟩
  rintro ⟨hroom, hcond⟩
  obtain ⟨halong, hharmless⟩ := along_and.mp hcond
  obtain ⟨hboth, hone⟩ := hexact hroom halong
  exact ⟨hboth.mpr hharmless, fun clone hside => (hone clone hside).mpr hharmless⟩

end Runs

/-! ## A parent with one page -/

/-- A root with the page at `0x400000` mapped. -/
def parentState : State :=
  run (Op.step bootPlatform bootPlatform.kernelPml4) bootState [.mapPage 0x400000 0x7000 1]

/-- What `KernelNewPageStructure` makes of this root. -/
def childState : State := (kernelNewPageStructure bootPlatform parentState bootPlatform.kernelPml4).2

/-- The root it returns: the fourth frame of the pool. -/
def childRoot : ℕ := 0xFFFF800000103000

theorem kernelNewPageStructure_parentState :
    kernelNewPageStructure bootPlatform parentState bootPlatform.kernelPml4 =
      (childRoot, childState) := by
  have hroot : (kernelNewPageStructure bootPlatform parentState bootPlatform.kernelPml4).1 =
      childRoot := by decide
  exact Prod.ext hroot rfl

theorem parentState_forest :
    Forest bootPlatform (lowerView {bootPlatform.kernelPml4}) 16 parentState := by
  have hstart : Refines bootPlatform bootPlatform.kernelPml4 16 bootState (fun _ => none) :=
    Refines.empty bootState_pool (fun i _ => bootState_entry i) fun k _ => bootState_unused k
  have hops : ∀ op ∈ [Op.mapPage 0x400000 0x7000 1], op.Valid bootPlatform
      bootPlatform.kernelPml4 := by decide
  have hrun := hstart.run bootPlatform.kernelPml4_ne hops (by decide)
  refine hrun.forest.mono ?_
  rintro r q ⟨hr, hlt, -⟩
  exact ⟨hr, hlt, fun _ _ => trivial⟩

/-- The child maps a page under a slot its parent does not use, and the parent unmaps a page it
never mapped. -/
theorem clone_isolated_boot :
    Along (cloneStep bootPlatform bootPlatform.kernelPml4 childRoot)
      (Isolated bootPlatform bootPlatform.kernelPml4 childRoot) childState
      [(true, .mapPage 0x8000000000 0x9000 1), (false, .unmapPage 0x500000)] :=
  ((clone_isolated_iff (by decide) parentState_forest bootPlatform.kernelPml4_ne
    kernelNewPageStructure_parentState _ (by decide)).1 (by decide)).1

/-- The parent unmaps the page it had when it was cloned: the child loses it. -/
theorem clone_shares_page :
    Along (cloneStep bootPlatform bootPlatform.kernelPml4 childRoot)
      (CloneRoom bootPlatform 16 bootPlatform.kernelPml4 childRoot) childState
      [(false, .unmapPage 0x400000)] ∧
    kernelGetPhysicalAddress bootPlatform childState childRoot 0x400000 = 0x7000 ∧
    kernelGetPhysicalAddress bootPlatform
      (run (cloneStep bootPlatform bootPlatform.kernelPml4 childRoot) childState
        [(false, .unmapPage 0x400000)]) childRoot 0x400000 = 2 ^ 64 - 1 := by
  refine ⟨by decide, by decide, by decide⟩

end Cutesugar.Kernel.Mmu
