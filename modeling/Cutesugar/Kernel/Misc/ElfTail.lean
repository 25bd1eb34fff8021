import Cutesugar.Kernel.Misc.ElfCoverage

/-!
# The image that an executable leaves in memory

A loadable segment is as long as its size in memory says, and what its size in the file leaves is to
be zero. The loader reads neither that size nor the type of a header: pages are bound and bytes copied
for every header, and nothing is cleared.

- `ValidExecutable`: the executables that are meant.
- `TailsZero`, `ScopeKept`: the bytes behind those of the file, and the pages of other headers.
- `image_iff`: when both come out right, whatever the frames of the pool hold.
-/

namespace Cutesugar.Kernel.Elf

open Lib Mmu Fs

/-! ## Executables -/

/-- `header->program_table_entry_number`. -/
def headerCount (file : List UInt8) : ℕ := field file 56 2

/-- A header of type `PT_LOAD`. -/
def ProgramHeader.Loadable (h : ProgramHeader) : Prop := h.segmentType = 1

instance (h : ProgramHeader) : Decidable h.Loadable := inferInstanceAs (Decidable (_ = _))

/-- The addresses of a segment in memory. -/
def ProgramHeader.Occupied (h : ProgramHeader) (w : ℕ) : Prop :=
  h.virtualAddress ≤ w ∧ w < h.virtualAddress + h.memorySize

instance (h : ProgramHeader) (w : ℕ) : Decidable (h.Occupied w) := inferInstanceAs (Decidable (_ ∧ _))

/-- Those of them that the file has no bytes for. -/
def ProgramHeader.Tail (h : ProgramHeader) (w : ℕ) : Prop :=
  h.virtualAddress + h.fileSize ≤ w ∧ w < h.virtualAddress + h.memorySize

instance (h : ProgramHeader) (w : ℕ) : Decidable (h.Tail w) := inferInstanceAs (Decidable (_ ∧ _))

/-- A page with a byte of a loadable segment. -/
def InLoads (file : List UInt8) (p : ℕ) : Prop :=
  ∃ i < headerCount file, (programHeader file i).Loadable ∧
    ∃ w, (programHeader file i).Occupied w ∧ w / 4096 = p

/-- Segments lie in the lower half, loadable ones do not overlap, and none of these has more bytes in
the file than in memory. -/
structure ValidExecutable (file : List UInt8) : Prop where
  user : ∀ i < headerCount file,
    (programHeader file i).virtualAddress + (programHeader file i).fileSize ≤ 2 ^ 47 ∧
      (programHeader file i).virtualAddress + (programHeader file i).memorySize ≤ 2 ^ 47
  size : ∀ i < headerCount file, (programHeader file i).Loadable →
    (programHeader file i).fileSize ≤ (programHeader file i).memorySize
  apart : ∀ i < headerCount file, ∀ j < headerCount file, (programHeader file i).Loadable →
    (programHeader file j).Loadable → i ≠ j →
      ∀ w, (programHeader file i).Occupied w → ¬ (programHeader file j).Occupied w

/-- The pages of the lower half. -/
def userPages : Set ℕ := {p | p < 2 ^ 35}

/-! ## What is to hold of the image -/

/-- The bytes behind those of the file are mapped and zero. -/
def TailsZero (P : Platform) (root : ℕ) (file : List UInt8) (m : Memory) : Prop :=
  ∀ i < headerCount file, (programHeader file i).Loadable →
    ∀ w, (programHeader file i).Tail w → byteAt P m root w = some 0

/-- A header of another type binds no page without a byte of a loadable segment, and copies nothing to
such a page. -/
def ScopeKept (P : Platform) (root : ℕ) (k : State) (file : List UInt8) : Prop :=
  ∀ j < headerCount file, ¬ (programHeader file j).Loadable → ∀ fuel before after,
    loadSegments P fuel k file j k.mmu = .ok before →
    loadSegments P fuel k file (j + 1) k.mmu = .ok after →
    ∀ p, Canonical (4096 * p) → ¬ InLoads file p →
      lookup P after.mem root (4096 * p) = lookup P before.mem root (4096 * p) ∧
        ∀ w, (programHeader file j).Copied w → w / 4096 ≠ p

/-! ## The conditions -/

/-- Every byte behind those of the file lies in a page that some header binds or that was bound, and is
the last byte copied there, where it is zero, or a zero of a page that was bound. -/
def TailsMet (P : Platform) (s : Mmu.State) (M : PageMap) (file : List UInt8) : Prop :=
  ∀ i < headerCount file, (programHeader file i).Loadable → ∀ w, (programHeader file i).Tail w →
    BoundBefore M file (headerCount file) (w / 4096) ∧
      (written file (headerCount file) w = some 0 ∨ written file (headerCount file) w = none ∧
        ∃ f, M (w / 4096) = some f ∧ s.mem (f + P.hhdmOffset + w % 4096) = 0)

/-- The pages of the other headers have a byte of a loadable segment, or are bound before and nothing
is copied to them. -/
def ScopeMet (M : PageMap) (file : List UInt8) : Prop :=
  ∀ j < headerCount file, ¬ (programHeader file j).Loadable →
    (∀ x < (programHeader file j).fileSize / 0x1000 + 1,
      BoundBefore M file j (pageAt (programHeader file j).virtualAddress x) ∨
        InLoads file (pageAt (programHeader file j).virtualAddress x)) ∧
      ∀ w, (programHeader file j).Copied w → InLoads file (w / 4096)

variable {P : Platform} {root count fuel i : ℕ} {s s' : Mmu.State} {M : PageMap} {file : List UInt8}
  {k k' : State} {m : Memory}

/-! ## Runs of the loader -/

/-- What an executable is loaded by. -/
theorem loadExecutable_eq_ok {entry : ℕ} (hentry : entry ≠ 0) :
    loadExecutable P fuel k file = .ok (entry, k') ↔
      58 ≤ file.length ∧ field file 0 1 = 0x7F ∧ field file 24 8 = entry ∧
        ∃ mmu, loadSegments P fuel k file (headerCount file) k.mmu = .ok mmu ∧
          k' = { k with mmu := mmu } := by
  constructor
  · intro h
    obtain ⟨magic, hmagic, h⟩ := Libc.bind_eq_ok.mp h
    obtain ⟨-, rfl⟩ := readAt_eq_ok.mp hmagic
    split_ifs at h with hother
    · have hzero : 0 = entry := congrArg Prod.fst (Except.ok.inj h)
      exact absurd hzero.symm hentry
    · obtain ⟨number, hnumber, h⟩ := Libc.bind_eq_ok.mp h
      obtain ⟨hlen, rfl⟩ := readAt_eq_ok.mp hnumber
      obtain ⟨mmu, hrun, h⟩ := Libc.bind_eq_ok.mp h
      obtain ⟨start, hstart, h⟩ := Libc.bind_eq_ok.mp h
      obtain ⟨-, rfl⟩ := readAt_eq_ok.mp hstart
      obtain ⟨rfl, rfl⟩ := Prod.mk.inj (Except.ok.inj h)
      exact ⟨hlen, not_not.mp hother, rfl, mmu, hrun, rfl⟩
  · rintro ⟨hlen, hmagic, rfl, mmu, hrun, rfl⟩
    apply Libc.bind_eq_ok.mpr ⟨_, readAt_eq_ok.mpr ⟨(by decide : 0 + 1 ≤ 58).trans hlen, hmagic⟩, _⟩
    rw [if_neg (by decide)]
    apply Libc.bind_eq_ok.mpr ⟨_, readAt_eq_ok.mpr ⟨hlen, rfl⟩, _⟩
    apply Libc.bind_eq_ok.mpr ⟨mmu, hrun, _⟩
    exact Libc.bind_eq_ok.mpr ⟨_, readAt_eq_ok.mpr ⟨(by decide : 24 + 8 ≤ 58).trans hlen, rfl⟩, rfl⟩

/-- The segments of a valid executable lie in pages of the lower half. -/
theorem ValidExecutable.loads (hvalid : ValidExecutable file)
    (h : Loads P root count userPages M k file 0) :
    Loads P root count userPages M k file (headerCount file) where
  owned := h.owned
  process := h.process
  active := h.active
  nonnull := h.nonnull
  inside := by
    rintro j hj w ⟨b, hb, rfl⟩ -
    have huser := (hvalid.user j hj).1
    change _ < 2 ^ 35
    omega

theorem canonical_pageAt (address x : ℕ) : Canonical (4096 * pageAt address x) := by
  have h := canonical_canon ((address + 0x1000 * x) % 2 ^ 64)
  unfold pageAt
  unfold Canonical at h ⊢
  omega

/-! ## The bytes behind those of the file -/

/-- The kernel with other bytes in memory. -/
abbrev withMem (k : State) (m : Memory) : State := { k with mmu := k.mmu.withMem m }

theorem Loads.withMem (h : Loads P root count userPages M k file i)
    (hm : SameButFree P count k.mmu m) :
    Loads P root count userPages M (withMem k m) file i where
  owned := h.owned.sameButFree hm
  process := h.process
  active := h.active
  nonnull := h.nonnull
  inside := h.inside

theorem tail_user (hvalid : ValidExecutable file) (hi : i < headerCount file) {w : ℕ}
    (hw : (programHeader file i).Tail w) : Canonical w ∧ w / 4096 ∈ userPages := by
  have huser := (hvalid.user i hi).2
  obtain ⟨-, hlt⟩ := hw
  refine ⟨.inl (by omega), ?_⟩
  change _ < 2 ^ 35
  omega

/-- The condition is enough, whatever the frames of the pool hold. -/
theorem tailsZero_of_met (hvalid : ValidExecutable file)
    (h : Loads P root count userPages M k file (headerCount file)) (hmet : TailsMet P k.mmu M file)
    (hm : SameButFree P count k.mmu m)
    (hrun : loadSegments P fuel (withMem k m) file (headerCount file) (k.mmu.withMem m) = .ok s)
    (hroom : s.stackPosition ≤ count) : TailsZero P root file s.mem := by
  intro i hi hload w hw
  obtain ⟨hcanonical, hp⟩ := tail_user hvalid hi hw
  obtain ⟨M', hloaded, hbound, -, -⟩ := segments_loaded (h.withMem hm) hrun hroom
  obtain ⟨hbefore, hbyte⟩ := hmet i hi hload w hw
  obtain ⟨f, hf⟩ := Option.isSome_iff_exists.mp ((hbound _).mpr hbefore)
  rw [hloaded.byteAt_eq hcanonical hp, hf, Option.map_some]
  rcases hbyte with hlast | ⟨hnone, g, hg, hzero⟩
  · rw [hlast]
    rfl
  · -- the page was bound before, to a frame that keeps its bytes
    obtain rfl : f = g := Option.some.inj (hf.symm.trans (hloaded.keep _ _ hg))
    rw [hnone, Option.getD_none]
    have hsame := h.owned.sameButFree_apply hm hp hg (Nat.mod_lt w (by decide : 0 < 4096))
    exact congrArg some (hsame.trans hzero)

/-- The condition is necessary: the frames of the pool may be full of ones. -/
theorem tailsMet_of_zero (hvalid : ValidExecutable file)
    (h : Loads P root count userPages M k file (headerCount file))
    (hrun : loadSegments P fuel (withMem k (filled P count k.mmu 1)) file (headerCount file)
      (k.mmu.withMem (filled P count k.mmu 1)) = .ok s)
    (hroom : s.stackPosition ≤ count) (hzero : TailsZero P root file s.mem) :
    TailsMet P k.mmu M file := by
  intro i hi hload w hw
  have hm : SameButFree P count k.mmu (filled P count k.mmu 1) := sameButFree_filled 1
  obtain ⟨hcanonical, hp⟩ := tail_user hvalid hi hw
  obtain ⟨M', hloaded, hbound, -, -⟩ := segments_loaded (h.withMem hm) hrun hroom
  have hbyte := hzero i hi hload w hw
  rw [hloaded.byteAt_eq hcanonical hp] at hbyte
  obtain ⟨f, hf, hbyte⟩ := Option.map_eq_some_iff.mp hbyte
  refine ⟨(hbound _).mp (by rw [hf]; rfl), ?_⟩
  cases hwritten : written file (headerCount file) w with
  | some b =>
    rw [hwritten] at hbyte
    exact .inl (congrArg some hbyte)
  | none =>
    rw [hwritten, Option.getD_none] at hbyte
    have ho : w % 4096 < 4096 := Nat.mod_lt w (by decide)
    rcases hloaded.new _ f hf with hold | ⟨-, l, hl, hl', rfl⟩
    · have hsame := h.owned.sameButFree_apply hm hp hold ho
      exact .inr ⟨rfl, f, hold, hsame.symm.trans hbyte⟩
    · -- a frame of the pool, which holds ones
      have hone := filled_frame (P := P) (s := k.mmu) 1 hl (hl'.trans_le hroom) ho
      exact absurd (hone.symm.trans hbyte) (by decide)

/-! ## The pages of other headers -/

/-- One header more, seen from the state before it. -/
theorem step_loaded (h : Loads P root count userPages M k file (i + 1))
    (hbefore : loadSegments P fuel k file i k.mmu = .ok s)
    (hafter : loadSegments P fuel k file (i + 1) k.mmu = .ok s') (hroom : s'.stackPosition ≤ count) :
    ∃ M₁ M₂, Refines P root count s M₁ ∧ Refines P root count s' M₂ ∧
      (∀ p, (M₁ p).isSome ↔ BoundBefore M file i p) ∧ (∀ p f, M₁ p = some f → M₂ p = some f) ∧
      ∀ p, (M₂ p).isSome ↔ (M₁ p).isSome ∨ ∃ x < (programHeader file i).fileSize / 0x1000 + 1,
        p = pageAt (programHeader file i).virtualAddress x := by
  obtain ⟨s₁, hrun, -, -, s₂, hmap, hcopy⟩ := (loadSegments_succ h.process).mp hafter
  obtain rfl := Except.ok.inj (hbefore.symm.trans hrun)
  obtain ⟨-, rfl⟩ := mapPages_eq_ok.mp ⟨fuel, hmap⟩
  rw [(memcpyFrom_pool hcopy).2] at hroom
  rw [h.active] at hcopy
  have hpos : s.stackPosition + ((programHeader file i).fileSize / 0x1000 + 1) ≤
      (mapMany P root (programHeader file i).virtualAddress
        ((programHeader file i).fileSize / 0x1000 + 1) s).stackPosition := mapMany_stackPosition _
  obtain ⟨M₁, hloaded₁, hbound₁, -, -⟩ := segments_loaded (h.initial (Nat.le_succ i)) hbefore (by omega)
  obtain ⟨M₂, hloaded₂, hbound₂⟩ :=
    loaded_mapMany (Loaded.start hloaded₁.owned) h.nonnull _ hroom
  obtain ⟨-, -, -, hloaded⟩ := loaded_memcpyFrom hloaded₂
    (fun w hw => h.inside i (Nat.lt_succ_self i) w hw) hcopy
  exact ⟨M₁, M₂, hloaded₁.owned.refines, hloaded.owned.refines, hbound₁, hloaded.keep, hbound₂⟩

/-- **The pages of other headers**, for a loader that comes to its end. -/
theorem scopeKept_iff (h : Loads P root count userPages M k file (headerCount file))
    (hroom : k.mmu.stackPosition + 4 * pagesBefore file (headerCount file) ≤ count)
    (hrun : loadSegments P fuel k file (headerCount file) k.mmu = .ok s) :
    ScopeKept P root k file ↔ ScopeMet M file := by
  have hposition {fuel j : ℕ} {t : Mmu.State} (hj : j < headerCount file)
      (hafter : loadSegments P fuel k file (j + 1) k.mmu = .ok t) : t.stackPosition ≤ count := by
    obtain ⟨-, -, hpos⟩ := loadSegments_pool h.process hafter
    have hmono : pagesBefore file (j + 1) ≤ pagesBefore file (headerCount file) := pagesBefore_mono hj
    omega
  constructor
  · intro hkept j hj hload
    obtain ⟨after, hafter⟩ := loadSegments_at h.process hrun (Nat.succ_le_of_lt hj)
    obtain ⟨before, hbefore, -⟩ := (loadSegments_succ h.process).mp hafter
    obtain ⟨M₁, M₂, hrefines₁, hrefines₂, hbound₁, -, hbound₂⟩ :=
      step_loaded (h.initial hj) hbefore hafter (hposition hj hafter)
    have hscope := hkept j hj hload fuel before after hbefore hafter
    constructor
    · intro x hx
      -- a page outside that the header binds was bound before, or the step would bind it now
      by_contra hneither
      rw [not_or] at hneither
      have hcanonical := canonical_pageAt (programHeader file j).virtualAddress x
      have hsame := (hscope _ hcanonical hneither.2).1
      rw [hrefines₁.lookup _ hcanonical, hrefines₂.lookup _ hcanonical,
        Nat.mul_div_cancel_left _ (by decide : 0 < 4096)] at hsame
      apply hneither.1
      rw [← hbound₁, ← hsame, hbound₂]
      exact .inr ⟨x, hx, rfl⟩
    · intro w hw
      by_contra hout
      -- a byte that is copied lies in a page of the address space
      obtain ⟨-, -, -, hcopied, -⟩ := segments_loaded (h.initial hj) hafter (hposition hj hafter)
      have hcanonical : Canonical (4096 * (w / 4096)) := by
        have hbyte := (hcopied j (Nat.lt_succ_self j) w hw).1
        unfold Canonical at hbyte ⊢
        omega
      exact (hscope _ hcanonical hout).2 w hw rfl
  · intro hmet j hj hload fuel before after hbefore hafter p hcanonical hout
    obtain ⟨hpages, hcopied⟩ := hmet j hj hload
    obtain ⟨M₁, M₂, hrefines₁, hrefines₂, hbound₁, hkeep, hbound₂⟩ :=
      step_loaded (h.initial hj) hbefore hafter (hposition hj hafter)
    refine ⟨?_, fun w hw heq => hout (heq ▸ hcopied w hw)⟩
    rw [hrefines₁.lookup _ hcanonical, hrefines₂.lookup _ hcanonical,
      Nat.mul_div_cancel_left _ (by decide : 0 < 4096)]
    -- a page that was bound keeps its frame; one that is bound now has a byte of a loadable segment
    cases hf : M₁ p with
    | some f => exact hkeep p f hf
    | none =>
      rw [← Option.not_isSome_iff_eq_none, hbound₂, hf]
      rintro (hsome | ⟨x, hx, rfl⟩)
      · exact absurd hsome (by decide)
      · rcases hpages x hx with hbefore | hin
        · rw [← hbound₁, hf] at hbefore
          exact absurd hbefore (by decide)
        · exact hout hin

/-! ## The image -/

/-- **The image of a valid executable**: whatever the frames of the pool hold, the bytes behind those
of the file are mapped and zero and other headers keep to the pages of the loadable segments, exactly
if both conditions are met. -/
theorem image_iff (hvalid : ValidExecutable file)
    (h : Loads P root count userPages M k file 0)
    (hroom : k.mmu.stackPosition + 4 * pagesBefore file (headerCount file) ≤ count)
    (hreturns : ∃ fuel entry k', loadExecutable P fuel k file = .ok (entry, k') ∧ entry ≠ 0) :
    (∀ m, SameButFree P count k.mmu m → ∀ fuel entry k',
        loadExecutable P fuel (withMem k m) file = .ok (entry, k') → entry ≠ 0 →
          TailsZero P root file k'.mmu.mem ∧ ScopeKept P root (withMem k m) file) ↔
      TailsMet P k.mmu M file ∧ ScopeMet M file := by
  have hloads := hvalid.loads h
  obtain ⟨fuel, entry, k', hload, hentry⟩ := hreturns
  obtain ⟨hlen, hmagic, hstart, mmu, hrun, -⟩ := (loadExecutable_eq_ok hentry).mp hload
  have hfits := (loadSegments_succeeds_iff hloads hroom).mp ⟨fuel, mmu, hrun⟩
  have hposition {m : Memory} {fuel : ℕ} {t : Mmu.State}
      (hafter : loadSegments P fuel (withMem k m) file (headerCount file) (k.mmu.withMem m) = .ok t) :
      t.stackPosition ≤ count := by
    obtain ⟨-, -, hpos⟩ := loadSegments_pool (k := withMem k m) h.process hafter
    exact hpos.trans hroom
  constructor
  · intro hall
    -- the frames of the pool may be full of ones, and the loader comes to its end nevertheless
    have hm : SameButFree P count k.mmu (filled P count k.mmu 1) := sameButFree_filled 1
    obtain ⟨fuel', t, hones⟩ := (loadSegments_succeeds_iff (hloads.withMem hm) hroom).mpr hfits
    have himage := hall _ hm fuel' entry _
      ((loadExecutable_eq_ok hentry).mpr ⟨hlen, hmagic, hstart, t, hones, rfl⟩) hentry
    exact ⟨tailsMet_of_zero hvalid hloads hones (hposition hones) himage.1,
      (scopeKept_iff (hloads.withMem hm) hroom hones).mp himage.2⟩
  · rintro ⟨htails, hscope⟩ m hm fuel' entry' k₁ hload' hentry'
    obtain ⟨-, -, -, t, hrun', rfl⟩ := (loadExecutable_eq_ok hentry').mp hload'
    exact ⟨tailsZero_of_met hvalid hloads htails hm hrun' (hposition hrun'),
      (scopeKept_iff (hloads.withMem hm) hroom hrun').mpr hscope⟩

/-- A run that ends well, by what it ends with. -/
theorem exists_ok {α β : Type} {x : Except Fault α} {f : α → β} {b : β}
    (h : x.toOption.map f = some b) : ∃ a, x = .ok a ∧ f a = b := by
  cases x with
  | error e => exact absurd h (by simp [Except.toOption])
  | ok a => exact ⟨a, rfl, Option.some.inj h⟩

/-- The one header of a file. -/
theorem validExecutable_one (hcount : headerCount file = 1)
    (huser : (programHeader file 0).virtualAddress + (programHeader file 0).memorySize ≤ 2 ^ 47)
    (hsize : (programHeader file 0).fileSize ≤ (programHeader file 0).memorySize) :
    ValidExecutable file where
  user i hi := by
    obtain rfl : i = 0 := by omega
    exact ⟨by omega, huser⟩
  size i hi _ := by
    obtain rfl : i = 0 := by omega
    exact hsize
  apart i hi j hj _ _ hne := absurd ((by omega : i = 0).trans (by omega : j = 0).symm) hne

theorem loaderKernel_userLoads :
    Loads bootPlatform loaderRoot 16 userPages (fun _ => none) loaderKernel file 0 where
  owned := loaderKernel_owned userPages fun p hp => by
    change p < 2 ^ 35 at hp
    exact .inl (by omega)
  process := rfl
  active := rfl
  nonnull := by decide
  inside j hj := absurd hj (Nat.not_lt_zero j)

/-- A segment of 20 bytes of which the file has 16, and a note that puts zeros behind these. -/
def noteFile : List UInt8 :=
  executable 0x400000 [⟨1, 0, 0x400000, 0x10, 0x14⟩, ⟨4, 8, 0x400010, 4, 4⟩] []

theorem noteFile_segment : programHeader noteFile 0 = ⟨1, 0, 0x400000, 0x10, 0x14⟩ := by
  decide

theorem noteFile_note : programHeader noteFile 1 = ⟨4, 8, 0x400010, 4, 4⟩ := by
  decide

theorem noteFile_valid : ValidExecutable noteFile := by
  have hcount : headerCount noteFile = 2 := by decide
  have hcases {i : ℕ} (hi : i < headerCount noteFile) : i = 0 ∨ i = 1 := by omega
  have hnote : ¬ (programHeader noteFile 1).Loadable := by
    rw [noteFile_note]
    decide
  refine { user := fun i hi => ?_, size := fun i hi hload => ?_, apart := fun i hi j hj hl hl' => ?_ }
  · rcases hcases hi with rfl | rfl
    · rw [noteFile_segment]
      decide
    · rw [noteFile_note]
      decide
  · rcases hcases hi with rfl | rfl
    · rw [noteFile_segment]
      decide
    · exact absurd hload hnote
  · rcases hcases hi with rfl | rfl
    · rcases hcases hj with rfl | rfl
      · exact fun hne => absurd rfl hne
      · exact absurd hl' hnote
    · exact absurd hl hnote

/-- The first header binds the page that both copy to. -/
theorem noteFile_page {n w : ℕ} (hn : 0 < n) (hw : w / 4096 = 0x400) :
    BoundBefore (fun _ => none) noteFile n (w / 4096) := by
  refine .inr ⟨0, hn, 0, by rw [noteFile_segment]; decide, ?_⟩
  rw [hw, noteFile_segment]
  decide

theorem noteFile_fits {j : ℕ} (hj : j < headerCount noteFile) : Fits (fun _ => none) noteFile j := by
  have hcount : headerCount noteFile = 2 := by decide
  have hcases : j = 0 ∨ j = 1 := by omega
  rcases hcases with rfl | rfl
  · refine { table := by decide +kernel,
             readable := ⟨by decide +kernel, by decide +kernel, by decide +kernel⟩,
             loop := by rw [noteFile_segment]; decide, contents := by decide +kernel, bound := fun w hw => ?_ }
    rw [ProgramHeader.Copied, noteFile_segment] at hw
    obtain ⟨b, hb, rfl⟩ := hw
    dsimp only at hb ⊢
    exact ⟨.inl (by omega), noteFile_page (by decide) (by omega)⟩
  · refine { table := by decide +kernel,
             readable := ⟨by decide +kernel, by decide +kernel, by decide +kernel⟩,
             loop := by rw [noteFile_note]; decide, contents := by decide +kernel, bound := fun w hw => ?_ }
    rw [ProgramHeader.Copied, noteFile_note] at hw
    obtain ⟨b, hb, rfl⟩ := hw
    dsimp only at hb ⊢
    exact ⟨.inl (by omega), noteFile_page (by decide) (by omega)⟩

/-- The bytes that the segment has in memory only are the four of the note. -/
theorem noteFile_tailsMet : TailsMet bootPlatform loaderKernel.mmu (fun _ => none) noteFile := by
  have hcount : headerCount noteFile = 2 := by decide
  intro i hi hload w hw
  obtain rfl : i = 0 := by
    rcases (by omega : i = 0 ∨ i = 1) with rfl | rfl
    · rfl
    · rw [noteFile_note] at hload
      exact absurd hload (by decide)
  rw [ProgramHeader.Tail, noteFile_segment] at hw
  dsimp only at hw
  refine ⟨noteFile_page (by decide) (by omega), .inl ?_⟩
  rcases (by omega : w = 0x400010 ∨ w = 0x400011 ∨ w = 0x400012 ∨ w = 0x400013) with
    rfl | rfl | rfl | rfl <;> decide

/-- The note keeps to the page of the segment. -/
theorem noteFile_scopeMet : ScopeMet (fun _ => none) noteFile := by
  have hcount : headerCount noteFile = 2 := by decide
  have hin : InLoads noteFile 0x400 := by
    refine ⟨0, by decide, by rw [noteFile_segment]; decide, 0x400000, ?_, by decide⟩
    rw [noteFile_segment]
    decide
  intro j hj hload
  obtain rfl : j = 1 := by
    rcases (by omega : j = 0 ∨ j = 1) with rfl | rfl
    · rw [noteFile_segment] at hload
      exact absurd rfl hload
    · rfl
  rw [noteFile_note]
  refine ⟨fun x hx => .inr ?_, fun w hw => ?_⟩
  · obtain rfl : x = 0 := by
      dsimp only at hx
      omega
    exact hin
  · obtain ⟨b, hb, rfl⟩ := hw
    dsimp only at hb ⊢
    rwa [(by omega : (0x400010 + b) % 2 ^ 64 / 4096 = 0x400)]

/-- The bytes behind those of the file are zero in any frames, and the note keeps to its page. -/
theorem image_with_note :
    (∃ i < headerCount noteFile, ∃ w, (programHeader noteFile i).Tail w) ∧
    (∃ i < headerCount noteFile, ¬ (programHeader noteFile i).Loadable) ∧
    ∀ m, SameButFree bootPlatform 16 loaderKernel.mmu m → ∀ fuel entry k',
      loadExecutable bootPlatform fuel (withMem loaderKernel m) noteFile = .ok (entry, k') → entry ≠ 0 →
        TailsZero bootPlatform loaderRoot noteFile k'.mmu.mem ∧
          ScopeKept bootPlatform loaderRoot (withMem loaderKernel m) noteFile := by
  have hroom : loaderKernel.mmu.stackPosition + 4 * pagesBefore noteFile (headerCount noteFile) ≤ 16 := by
    decide
  have hreturns : ∃ fuel entry k',
      loadExecutable bootPlatform fuel loaderKernel noteFile = .ok (entry, k') ∧ entry ≠ 0 := by
    obtain ⟨fuel, s, hrun⟩ :=
      (loadSegments_succeeds_iff (noteFile_valid.loads loaderKernel_userLoads) hroom).mpr
        fun j hj => noteFile_fits hj
    exact ⟨fuel, 0x400000, _, (loadExecutable_eq_ok (by decide)).mpr
      ⟨by decide +kernel, by decide +kernel, by decide +kernel, s, hrun, rfl⟩, by decide⟩
  refine ⟨⟨0, by decide, 0x400010, ?_⟩, ⟨1, by decide, ?_⟩,
    (image_iff noteFile_valid loaderKernel_userLoads hroom hreturns).mpr
      ⟨noteFile_tailsMet, noteFile_scopeMet⟩⟩
  · rw [noteFile_segment]
    decide
  · rw [noteFile_note]
    decide

/-- A segment of 32 bytes of which the file has 16. -/
def tailFile : List UInt8 := executable 0x400000 [⟨1, 0, 0x400000, 0x10, 0x20⟩] []

/-- That segment, loaded into frames that are full of ones. -/
theorem tail_not_zero : ValidExecutable tailFile ∧ ∃ fuel entry k',
    loadExecutable bootPlatform fuel (withMem loaderKernel (filled bootPlatform 16 bootState 1)) tailFile
      = .ok (entry, k') ∧ entry ≠ 0 ∧ ¬ TailsZero bootPlatform loaderRoot tailFile k'.mmu.mem := by
  have hheader : programHeader tailFile 0 = ⟨1, 0, 0x400000, 0x10, 0x20⟩ := by decide
  have hrun : (loadExecutable bootPlatform 2
      (withMem loaderKernel (filled bootPlatform 16 bootState 1)) tailFile).toOption.map
        (fun r => (r.1, byteAt bootPlatform r.2.mmu.mem loaderRoot 0x400010)) =
      some (0x400000, some 1) := by decide +kernel
  obtain ⟨⟨entry, k'⟩, hload, hresult⟩ := exists_ok hrun
  obtain ⟨rfl, hbyte⟩ := Prod.mk.inj hresult
  refine ⟨validExecutable_one (by decide) (by rw [hheader]; decide) (by rw [hheader]; decide),
    2, _, k', hload, by decide, fun hzero => ?_⟩
  have hlast := hzero 0 (by decide) (by rw [hheader]; rfl) 0x400010
    (by rw [hheader]; exact ⟨by decide, by decide⟩)
  exact absurd (hbyte.symm.trans hlast) (by decide)

end Cutesugar.Kernel.Elf
