import Cutesugar.Kernel.Misc.ElfTail
import Mathlib.Data.Set.Lattice
import Mathlib.Order.CompletePartialOrder

/-!
# Where modules are loaded

The base of a module is the number of a frame, taken from the pool for nothing else, and its pages are
counted from there. Since every page takes a frame too, the next base is behind all of them, as long as
the pool hands out frames in ascending order.

- `loadModuleSegments`: the loop over the headers of a module, and what it takes from the pool.
- `loadsOf`: the loads of a sequence of calls.
- `modules_disjoint`: no page is mapped for two of them.
-/

namespace Cutesugar.Kernel.Elf

open Lib Mmu

variable {P : Platform} {fuel active base n count : ℕ} {s s' : Mmu.State} {file : List UInt8}

/-! ## The headers of a module -/

/-- The bound of the loop over the pages of a header. -/
def ProgramHeader.pagesBound (h : ProgramHeader) : ℕ := (h.memorySize / 0x1000 + 2) * 0x1000 % 2 ^ 64

/-- The loop over the program headers of a module. -/
def loadModuleSegments (P : Platform) (fuel active base : ℕ) (file : List UInt8) (number : ℕ)
    (s : Mmu.State) : Except Fault Mmu.State :=
  (List.range number).foldlM (fun s i =>
    loadModuleSegment P fuel active base file s (headerPlace file i)) s

/-- **What one header does.** -/
theorem loadModuleSegment_eq_ok {place : ℕ} :
    loadModuleSegment P fuel active base file s place = .ok s' ↔
      (place + 40) % 2 ^ 64 + 8 ≤ file.length ∧ Readable file place ∧
        ∃ s₁, mapPages P active base
            ((field file ((place + 40) % 2 ^ 64) 8 / 0x1000 + 2) * 0x1000 % 2 ^ 64) fuel s 0 = .ok s₁ ∧
          memcpyFrom P active s₁ (field file ((place + 16) % 2 ^ 64) 8 + base) file
            (field file ((place + 8) % 2 ^ 64) 8) (field file ((place + 32) % 2 ^ 64) 8) = .ok s' := by
  constructor
  · intro h
    obtain ⟨memorySize, hmemory, h⟩ := Libc.bind_eq_ok.mp h
    obtain ⟨s₁, hmap, h⟩ := Libc.bind_eq_ok.mp h
    obtain ⟨address, haddress, h⟩ := Libc.bind_eq_ok.mp h
    obtain ⟨offset, hoffset, h⟩ := Libc.bind_eq_ok.mp h
    obtain ⟨size, hsize, h⟩ := Libc.bind_eq_ok.mp h
    obtain ⟨hmemories, rfl⟩ := readAt_eq_ok.mp hmemory
    obtain ⟨haddresses, rfl⟩ := readAt_eq_ok.mp haddress
    obtain ⟨hoffsets, rfl⟩ := readAt_eq_ok.mp hoffset
    obtain ⟨hsizes, rfl⟩ := readAt_eq_ok.mp hsize
    exact ⟨hmemories, ⟨hsizes, haddresses, hoffsets⟩, s₁, hmap, h⟩
  · rintro ⟨hmemory, ⟨hsize, haddress, hoffset⟩, s₁, hmap, h⟩
    apply Libc.bind_eq_ok.mpr ⟨_, readAt_eq_ok.mpr ⟨hmemory, rfl⟩, _⟩
    apply Libc.bind_eq_ok.mpr ⟨s₁, hmap, _⟩
    apply Libc.bind_eq_ok.mpr ⟨_, readAt_eq_ok.mpr ⟨haddress, rfl⟩, _⟩
    apply Libc.bind_eq_ok.mpr ⟨_, readAt_eq_ok.mpr ⟨hoffset, rfl⟩, _⟩
    exact Libc.bind_eq_ok.mpr ⟨_, readAt_eq_ok.mpr ⟨hsize, rfl⟩, h⟩

/-- The last of some headers. -/
theorem loadModuleSegments_succ :
    loadModuleSegments P fuel active base file (n + 1) s = .ok s' ↔
      ∃ s₁, loadModuleSegments P fuel active base file n s = .ok s₁ ∧
        (headerPlace file n + 40) % 2 ^ 64 + 8 ≤ file.length ∧ Readable file (headerPlace file n) ∧
        ∃ s₂, mapPages P active base (programHeader file n).pagesBound fuel s₁ 0 = .ok s₂ ∧
          memcpyFrom P active s₂ ((programHeader file n).virtualAddress + base) file
            (programHeader file n).fileOffset (programHeader file n).fileSize = .ok s' := by
  rw [loadModuleSegments, List.range_succ, List.foldlM_append, Libc.bind_eq_ok]
  refine exists_congr fun s₁ => and_congr_right fun _ => ?_
  rw [List.foldlM_cons, Libc.bind_eq_ok]
  constructor
  · rintro ⟨s₂, hstep, hlast⟩
    obtain rfl := Except.ok.inj hlast
    exact loadModuleSegment_eq_ok.mp hstep
  · intro hstep
    exact ⟨s', loadModuleSegment_eq_ok.mpr hstep, rfl⟩

/-- **What the headers take from the pool**: a frame at least for every page of each. -/
theorem loadModuleSegments_pool (h : loadModuleSegments P fuel active base file n s = .ok s') :
    s'.memList = s.memList ∧ s.stackPosition ≤ s'.stackPosition ∧
      ∀ i < n, s.stackPosition + ((programHeader file i).pagesBound / 0x1000 + 1) ≤ s'.stackPosition := by
  induction n generalizing s' with
  | zero =>
    obtain rfl := Except.ok.inj h
    exact ⟨rfl, le_rfl, fun i hi => absurd hi (Nat.not_lt_zero i)⟩
  | succ n ih =>
    obtain ⟨s₁, hbefore, -, -, s₂, hmap, hcopy⟩ := loadModuleSegments_succ.mp h
    obtain ⟨-, rfl⟩ := mapPages_eq_ok.mp ⟨fuel, hmap⟩
    obtain ⟨hlist, hle, hpages⟩ := ih hbefore
    obtain ⟨hsame, hpos⟩ := memcpyFrom_pool hcopy
    have hlist' : (mapMany P active base ((programHeader file n).pagesBound / 0x1000 + 1) s₁).memList =
        s₁.memList := (mapMany_pool _).1
    have hpos' : s₁.stackPosition + ((programHeader file n).pagesBound / 0x1000 + 1) ≤
        (mapMany P active base ((programHeader file n).pagesBound / 0x1000 + 1) s₁).stackPosition :=
      mapMany_stackPosition _
    refine ⟨(hsame.trans hlist').trans hlist, by omega, fun i hi => ?_⟩
    rcases Nat.lt_succ_iff_lt_or_eq.mp hi with hlt | rfl
    · have hold := hpages i hlt
      omega
    · omega

/-! ## The symbols of a module -/

/-- The pool is the same. -/
def SamePool (s s' : Mmu.State) : Prop := s'.memList = s.memList ∧ s'.stackPosition = s.stackPosition

theorem SamePool.trans {s₁ s₂ s₃ : Mmu.State} (h : SamePool s₁ s₂) (h' : SamePool s₂ s₃) :
    SamePool s₁ s₃ := ⟨h'.1.trans h.1, h'.2.trans h.2⟩

theorem foldlM_samePool {α β : Type} {f : Mmu.State × β → α → Except Fault (Mmu.State × β)}
    (hstep : ∀ s a s', f s a = .ok s' → SamePool s.1 s'.1) {l : List α} {s s' : Mmu.State × β}
    (h : l.foldlM f s = .ok s') : SamePool s.1 s'.1 := by
  induction l generalizing s with
  | nil =>
    obtain rfl := Except.ok.inj h
    exact ⟨rfl, rfl⟩
  | cons a l ih =>
    rw [List.foldlM_cons] at h
    obtain ⟨s₁, hfirst, hrest⟩ := Libc.bind_eq_ok.mp h
    exact (hstep _ _ _ hfirst).trans (ih hrest)

theorem loadSymbol_pool {strings place : ℕ} {s s' : Mmu.State × List FunctionSymbol}
    (h : loadSymbol P active base file strings s place = .ok s') : SamePool s.1 s'.1 := by
  obtain ⟨info, -, h⟩ := Libc.bind_eq_ok.mp h
  obtain ⟨value, -, h⟩ := Libc.bind_eq_ok.mp h
  split_ifs at h
  · obtain ⟨size, -, h⟩ := Libc.bind_eq_ok.mp h
    obtain ⟨mmu, hcopy, h⟩ := Libc.bind_eq_ok.mp h
    obtain ⟨nameOffset, -, h⟩ := Libc.bind_eq_ok.mp h
    obtain ⟨name, -, h⟩ := Libc.bind_eq_ok.mp h
    obtain ⟨symbols, -, h⟩ := Libc.bind_eq_ok.mp h
    obtain rfl := Except.ok.inj h
    exact memcpyFrom_pool hcopy
  · obtain rfl := Except.ok.inj h
    exact ⟨rfl, rfl⟩

theorem loadSection_pool {sections i : ℕ} {s s' : Mmu.State × List FunctionSymbol}
    (h : loadSection P active base file sections s i = .ok s') : SamePool s.1 s'.1 := by
  obtain ⟨type, -, h⟩ := Libc.bind_eq_ok.mp h
  split_ifs at h
  · obtain ⟨table, -, h⟩ := Libc.bind_eq_ok.mp h
    obtain ⟨stringIndex, -, h⟩ := Libc.bind_eq_ok.mp h
    obtain ⟨strings, -, h⟩ := Libc.bind_eq_ok.mp h
    obtain ⟨size, -, h⟩ := Libc.bind_eq_ok.mp h
    obtain ⟨entrySize, -, h⟩ := Libc.bind_eq_ok.mp h
    obtain ⟨number, -, h⟩ := Libc.bind_eq_ok.mp h
    exact foldlM_samePool (fun _ _ _ => loadSymbol_pool) h
  · obtain rfl := Except.ok.inj h
    exact ⟨rfl, rfl⟩

/-! ## Loading a module -/

/-- The base that a load in a state gives. -/
def baseOf (s : ElfState) : ℕ :=
  (s.kernel.mmu.memList s.kernel.mmu.stackPosition + 0xffffc00000000000) % 2 ^ 64

/-- **What a load does**, once it returns. -/
theorem kernelLoadElfLibrary_eq_ok {t t' : ElfState}
    (h : kernelLoadElfLibrary P fuel t file = .ok (base, t')) :
    (field file 0 1 ≠ 0x7F ∧ base = 0 ∧ t' = t) ∨
      (field file 0 1 = 0x7F ∧ base = baseOf t ∧ ∃ mmu symbols,
        loadModuleSegments P fuel (activeRoot P t.kernel) base file (headerCount file)
          (kernelAllocateFrame t.kernel.mmu).2 = .ok mmu ∧
        (List.range (field file 60 2)).foldlM
          (loadSection P (activeRoot P t.kernel) base file (field file 40 8)) (mmu, t.symbols) =
            .ok (t'.kernel.mmu, symbols)) := by
  obtain ⟨magic, hmagic, h⟩ := Libc.bind_eq_ok.mp h
  obtain ⟨-, rfl⟩ := readAt_eq_ok.mp hmagic
  split_ifs at h with hother
  · obtain ⟨rfl, rfl⟩ := Prod.mk.inj (Except.ok.inj h)
    exact .inl ⟨hother, rfl, rfl⟩
  · obtain ⟨sections, hsections, h⟩ := Libc.bind_eq_ok.mp h
    obtain ⟨tableOffset, htable, h⟩ := Libc.bind_eq_ok.mp h
    obtain ⟨number, hnumber, h⟩ := Libc.bind_eq_ok.mp h
    obtain ⟨entrySize, hentry, h⟩ := Libc.bind_eq_ok.mp h
    obtain ⟨mmu, hsegments, h⟩ := Libc.bind_eq_ok.mp h
    obtain ⟨sectionNumber, hsectionNumber, h⟩ := Libc.bind_eq_ok.mp h
    obtain ⟨⟨mmu', symbols⟩, hpass, hend⟩ := Libc.bind_eq_ok.mp h
    obtain ⟨rfl, rfl⟩ := Prod.mk.inj (Except.ok.inj hend)
    obtain ⟨-, rfl⟩ := readAt_eq_ok.mp hsections
    obtain ⟨-, rfl⟩ := readAt_eq_ok.mp htable
    obtain ⟨-, rfl⟩ := readAt_eq_ok.mp hnumber
    obtain ⟨-, rfl⟩ := readAt_eq_ok.mp hentry
    obtain ⟨-, rfl⟩ := readAt_eq_ok.mp hsectionNumber
    exact .inr ⟨not_not.mp hother, rfl, mmu, symbols, hsegments, hpass⟩

/-- **What a load takes from the pool**: a frame for the base, and one for every page of each header. -/
theorem kernelLoadElfLibrary_pool {t t' : ElfState}
    (h : kernelLoadElfLibrary P fuel t file = .ok (base, t')) :
    t'.kernel.mmu.memList = t.kernel.mmu.memList ∧
      t.kernel.mmu.stackPosition ≤ t'.kernel.mmu.stackPosition ∧
      (field file 0 1 = 0x7F → ∀ i < headerCount file, t.kernel.mmu.stackPosition + 1 +
        ((programHeader file i).pagesBound / 0x1000 + 1) ≤ t'.kernel.mmu.stackPosition) := by
  rcases kernelLoadElfLibrary_eq_ok h with ⟨hother, -, rfl⟩ | ⟨-, -, mmu, symbols, hsegments, hpass⟩
  · exact ⟨rfl, le_rfl, fun hmagic => absurd hmagic hother⟩
  · obtain ⟨hlist, hle, hpages⟩ := loadModuleSegments_pool hsegments
    obtain ⟨hlist', hpos⟩ := foldlM_samePool (fun _ _ _ => loadSection_pool) hpass
    dsimp only at hlist' hpos
    change t.kernel.mmu.stackPosition + 1 ≤ _ at hle
    change ∀ i < _, t.kernel.mmu.stackPosition + 1 + _ ≤ _ at hpages
    refine ⟨hlist'.trans hlist, by omega, fun _ i hi => ?_⟩
    have hi' := hpages i hi
    omega

/-! ## Sequences of calls -/

/-- A load, or other code that takes frames from the pool and writes to memory. -/
inductive ModuleCall where
  | load (file : List UInt8)
  | other (frames : ℕ) (mem : Memory)

/-- The state after other code. -/
def ElfState.after (s : ElfState) (frames : ℕ) (mem : Memory) : ElfState :=
  { s with kernel := { s.kernel with
      mmu := { s.kernel.mmu with mem := mem, stackPosition := s.kernel.mmu.stackPosition + frames } } }

/-- The loads of a sequence of calls, each with the state that it starts in. After one that does not
return there are no more. -/
def loadsOf (P : Platform) (fuel : ℕ) : ElfState → List ModuleCall → List (ElfState × List UInt8)
  | _, [] => []
  | s, .other frames mem :: calls => loadsOf P fuel (s.after frames mem) calls
  | s, .load file :: calls => (s, file) :: match kernelLoadElfLibrary P fuel s file with
    | .ok (_, s') => loadsOf P fuel s' calls
    | .error _ => []

/-- The pages that a load maps, at `base_address + x`. -/
def pagesOf (s : ElfState) (file : List UInt8) : Set ℕ :=
  {p | field file 0 1 = 0x7F ∧ ∃ i < headerCount file, ∃ x, 0x1000 * x ≤ (programHeader file i).pagesBound ∧
    p = (baseOf s + 0x1000 * x) % 2 ^ 64 / 0x1000}

/-- The pool has a frame for the base, and no address from there on wraps around. -/
def Supplied (count : ℕ) (s : ElfState) (file : List UInt8) : Prop :=
  s.kernel.mmu.stackPosition < count ∧ ∀ i < headerCount file,
    s.kernel.mmu.memList s.kernel.mmu.stackPosition + 0xffffc00000000000 +
      ((programHeader file i).memorySize / 0x1000 + 2) * 0x1000 < 2 ^ 64

instance (count : ℕ) (s : ElfState) (file : List UInt8) : Decidable (Supplied count s file) :=
  inferInstanceAs (Decidable (_ ∧ _))

/-- The frames of the pool are pages in ascending order. -/
structure Ascending (count : ℕ) (memList : ℕ → ℕ) : Prop where
  aligned : ∀ k < count, memList k % 0x1000 = 0
  ascending : ∀ k l, k < l → l < count → memList k < memList l

/-- Between two frames there is room for as many pages as frames. -/
theorem Ascending.gap {memList : ℕ → ℕ} (h : Ascending count memList) {k d : ℕ} (hd : k + d < count) :
    memList k + 0x1000 * d ≤ memList (k + d) := by
  induction d with
  | zero => exact le_rfl
  | succ d ih =>
    have hstep := h.ascending (k + d) (k + (d + 1)) (by omega) hd
    have hlow := h.aligned (k + d) (by omega)
    have hhigh := h.aligned (k + (d + 1)) hd
    have hbefore := ih (by omega)
    omega

/-- The pages of a load start at its base. -/
theorem base_le_of_mem {t : ElfState} {p : ℕ} (h : Supplied count t file) (hp : p ∈ pagesOf t file) :
    t.kernel.mmu.memList t.kernel.mmu.stackPosition + 0xffffc00000000000 ≤ 0x1000 * p + 0xFFF ∧
      ∃ i < headerCount file, 0x1000 * p ≤ t.kernel.mmu.memList t.kernel.mmu.stackPosition +
        0xffffc00000000000 + (programHeader file i).pagesBound := by
  obtain ⟨-, i, hi, x, hx, rfl⟩ := hp
  have hwrap := h.2 i hi
  unfold baseOf
  have hbound : (programHeader file i).pagesBound ≤
      ((programHeader file i).memorySize / 0x1000 + 2) * 0x1000 := Nat.mod_le ..
  exact ⟨by omega, i, hi, by omega⟩

/-- The pages of all loads of some calls start at bases of frames that are taken later. -/
theorem later_pages {t : ElfState} {calls : List ModuleCall}
    (hsupplied : ∀ l ∈ loadsOf P fuel t calls, Supplied count l.1 l.2) {l : ElfState × List UInt8}
    (hl : l ∈ loadsOf P fuel t calls) : l.1.kernel.mmu.memList = t.kernel.mmu.memList ∧
      t.kernel.mmu.stackPosition ≤ l.1.kernel.mmu.stackPosition := by
  induction calls generalizing t with
  | nil => exact absurd hl (by simp [loadsOf])
  | cons call calls ih =>
    cases call with
    | other frames mem =>
      obtain ⟨hlist, hpos⟩ := ih hsupplied hl
      exact ⟨hlist, (Nat.le_add_right ..).trans hpos⟩
    | load file =>
      rw [loadsOf] at hsupplied hl
      rcases List.mem_cons.mp hl with rfl | hl
      · exact ⟨rfl, le_rfl⟩
      · cases hreturns : kernelLoadElfLibrary P fuel t file with
        | error e =>
          rw [hreturns] at hl
          exact absurd hl (by simp)
        | ok r =>
          obtain ⟨base, t'⟩ := r
          rw [hreturns] at hl hsupplied
          obtain ⟨hlist, hpos⟩ := ih (fun l hl => hsupplied l (List.mem_cons_of_mem _ hl)) hl
          obtain ⟨hlist', hpos', -⟩ := kernelLoadElfLibrary_pool hreturns
          exact ⟨hlist.trans hlist', hpos'.trans hpos⟩

/-- **Modules do not overlap.** -/
theorem modules_disjoint {t : ElfState} (hpool : Ascending count t.kernel.mmu.memList)
    (calls : List ModuleCall) (hsupplied : ∀ l ∈ loadsOf P fuel t calls, Supplied count l.1 l.2) :
    (loadsOf P fuel t calls).Pairwise fun l l' => Disjoint (pagesOf l.1 l.2) (pagesOf l'.1 l'.2) := by
  induction calls generalizing t with
  | nil => exact List.Pairwise.nil
  | cons call calls ih =>
    cases call with
    | other frames mem => exact ih hpool hsupplied
    | load file =>
      rw [loadsOf] at hsupplied ⊢
      cases hreturns : kernelLoadElfLibrary P fuel t file with
      | error e => exact List.pairwise_singleton ..
      | ok r =>
        obtain ⟨base, t'⟩ := r
        rw [hreturns] at hsupplied
        obtain ⟨hlist, hpos, hpages⟩ := kernelLoadElfLibrary_pool hreturns
        have hrest : ∀ l ∈ loadsOf P fuel t' calls, Supplied count l.1 l.2 :=
          fun l hl => hsupplied l (List.mem_cons_of_mem _ hl)
        refine List.pairwise_cons.mpr ⟨fun l hl => ?_, ih (by rw [hlist]; exact hpool) hrest⟩
        rw [Set.disjoint_left]
        intro p hp hp'
        -- the base of the later load is behind all frames that this one took
        obtain ⟨-, i, hi, hupper⟩ := base_le_of_mem (hsupplied _ (List.mem_cons_self ..)) hp
        obtain ⟨hlower, -⟩ := base_le_of_mem (hrest l hl) hp'
        obtain ⟨hlist', hpos'⟩ := later_pages hrest hl
        have htaken := hpages hp.1 i hi
        rw [hlist', hlist] at hlower
        have hlater := (hrest l hl).1
        have hgap := hpool.gap (k := t.kernel.mmu.stackPosition)
          (d := l.1.kernel.mmu.stackPosition - t.kernel.mmu.stackPosition) (by omega)
        rw [Nat.add_sub_cancel' (by omega)] at hgap
        dsimp only at hupper
        omega

/-- A module with one header. -/
def moduleFile : List UInt8 := executable 0 [⟨1, 0, 0, 0x10, 0x1010⟩] []

theorem bootState_ascending : Ascending 64 bootState.memList where
  aligned k _ := by
    simp only [bootState]
    omega
  ascending k l hlt _ := by
    simp only [bootState]
    omega

/-- Two loads, and a frame taken in between. -/
theorem modules_disjoint_two :
    (loadsOf bootPlatform 8 ⟨loaderKernel, []⟩ [.load moduleFile, .other 1 (fun _ => 0),
      .load moduleFile]).Pairwise fun l l' => Disjoint (pagesOf l.1 l.2) (pagesOf l'.1 l'.2) :=
  modules_disjoint bootState_ascending _ (by decide +kernel)

end Cutesugar.Kernel.Elf
