import Cutesugar.Kernel.Arch.Scheduler
import Cutesugar.Kernel.Misc.ElfSegments

/-!
# The pages that a segment is copied to

The loop over the pages of a segment counts whole pages of the size in the file and starts from the
address as it is. Where the bytes reach into one page more, that page is not bound by the loop.

- `AtCopy`: the call of `memcpy` for a header.
- `copies_to_mapped_iff`: when it copies to bound pages only.
-/

namespace Cutesugar.Kernel.Elf

open Lib Mmu Fs

variable {P : Platform} {root active count address bound fuel i : ℕ} {s s' s₀ : Mmu.State}
  {M M₀ : PageMap} {U : Set ℕ} {W : ℕ → Option UInt8} {file : List UInt8} {k : State}

/-! ## Pages of a region -/

/-- The canonical addresses, put one after the other. -/
theorem canonical_iff {w : ℕ} (hw : w < 2 ^ 64) : Canonical w ↔ (w + 2 ^ 47) % 2 ^ 64 < 2 ^ 48 := by
  unfold Canonical
  omega

theorem canon_line (w : ℕ) : (canon w + 2 ^ 47) % 2 ^ 64 = (w + 2 ^ 47) % 2 ^ 48 := by
  unfold canon
  split_ifs
  · omega
  · omega

/-- A canonical region does not wrap around on that line. -/
theorem region_line {n : ℕ} (hn : 0 < n) (h : ∀ w, Region address n w → Canonical w) :
    (address + 2 ^ 47) % 2 ^ 64 + n ≤ 2 ^ 48 := by
  by_contra hlong
  have hstart : (address + 2 ^ 47) % 2 ^ 64 < 2 ^ 48 := by
    have hfirst := (canonical_iff (Nat.mod_lt _ (by decide))).mp (h _ ⟨0, hn, rfl⟩)
    omega
  -- the first byte behind the upper end of the line
  have hout := (canonical_iff (Nat.mod_lt _ (by decide))).mp
    (h _ ⟨2 ^ 48 - (address + 2 ^ 47) % 2 ^ 64, by omega, rfl⟩)
  omega

/-- Where the last byte of a region is in the page behind those of the loop. -/
theorem last_page_not_pageAt {n j : ℕ} (h : ∀ w, Region address n w → Canonical w)
    (hreach : 0x1000 < address % 0x1000 + n % 0x1000) (hj : j < n / 0x1000 + 1) :
    (address + n - 1) % 2 ^ 64 / 4096 ≠ pageAt address j := by
  have hn : 0 < n := by omega
  have hline := region_line hn h
  have hlast : Canonical ((address + n - 1) % 2 ^ 64) :=
    h _ ⟨n - 1, Nat.sub_lt hn Nat.one_pos, by rw [Nat.add_sub_assoc hn]⟩
  intro heq
  have hpage := canon_line ((address + 0x1000 * j) % 2 ^ 64)
  have hbound : canon ((address + 0x1000 * j) % 2 ^ 64) < 2 ^ 64 := by
    have hcanonical := canonical_canon ((address + 0x1000 * j) % 2 ^ 64)
    unfold Canonical at hcanonical
    omega
  unfold pageAt at heq
  have hcanonical := (canonical_iff (Nat.mod_lt _ (by decide))).mp hlast
  generalize canon ((address + 0x1000 * j) % 2 ^ 64) = c at *
  omega

/-- The page of a byte of a region: one of the loop, or the one of the last byte. -/
theorem page_of_region {n w : ℕ} (hw : Region address n w) (hcanonical : Canonical w) :
    (∃ j < n / 0x1000 + 1, w / 4096 = pageAt address j) ∨
      0x1000 < address % 0x1000 + n % 0x1000 ∧ w / 4096 = (address + n - 1) % 2 ^ 64 / 4096 := by
  obtain ⟨b, hb, rfl⟩ := hw
  by_cases hlast : (address % 0x1000 + b) / 0x1000 < n / 0x1000 + 1
  · refine .inl ⟨_, hlast, ?_⟩
    have hstart : Canonical
        ((address + 0x1000 * ((address % 0x1000 + b) / 0x1000)) % 2 ^ 64) := by
      unfold Canonical at hcanonical ⊢
      omega
    rw [pageAt, canon_of_canonical hstart]
    omega
  · refine .inr ⟨by omega, ?_⟩
    omega

/-! ## The call of `memcpy` -/

/-- The call of `memcpy` for a header, in the state `s`: the headers before are loaded and the loop
over the pages of this one has come to its end. -/
structure AtCopy (P : Platform) (k : State) (root : ℕ) (file : List UInt8) (i : ℕ) (s : Mmu.State) :
    Prop where
  magic : readAt file 0 1 = .ok 0x7F
  header : ∃ number, readAt file 56 2 = .ok number ∧ i < number
  mapped : ∃ fuel before, loadSegments P fuel k file i k.mmu = .ok before ∧
    mapPages P root (programHeader file i).virtualAddress (programHeader file i).fileSize fuel
      before 0 = .ok s

/-- All bytes are copied to pages that the tables bind. -/
def CopiesToMapped (P : Platform) (root : ℕ) (file : List UInt8) (i : ℕ) (s : Mmu.State) : Prop :=
  ∀ w, (programHeader file i).Copied w → (physical P s.mem root w).isSome

/-- The bytes lie at canonical addresses, and where they reach one page further than the loop, that
page was bound before. -/
def Coverable (M : PageMap) (file : List UInt8) (i : ℕ) : Prop :=
  let h := programHeader file i
  (∀ w, h.Copied w → Canonical w) ∧
    (0x1000 < h.virtualAddress % 0x1000 + h.fileSize % 0x1000 →
      BoundBefore M file i ((h.virtualAddress + h.fileSize - 1) % 2 ^ 64 / 4096))

theorem isSome_physical (h : Refines P root count s M) {w : ℕ} :
    (physical P s.mem root w).isSome ↔ Canonical w ∧ (M (w / 4096)).isSome := by
  by_cases hw : Canonical w
  · rw [physical_eq h hw, Option.isSome_map, and_iff_right hw]
  · rw [physical, if_neg hw]
    exact iff_of_false (by simp) fun hboth => hw hboth.1

/-- **A segment is copied to bound pages** exactly if its bytes lie at canonical addresses and the
page that the loop leaves out was bound before, where there is one. -/
theorem copies_to_mapped_iff (h : Loads P root count U M k file i) (hat : AtCopy P k root file i s)
    (hroom : s.stackPosition ≤ count) : CopiesToMapped P root file i s ↔ Coverable M file i := by
  obtain ⟨fuel, before, hbefore, hmap⟩ := hat.mapped
  obtain ⟨-, rfl⟩ := mapPages_eq_ok.mp ⟨fuel, hmap⟩
  have hroom₁ : before.stackPosition ≤ count := by
    have hpos : before.stackPosition + ((programHeader file i).fileSize / 0x1000 + 1) ≤
        (mapMany P root (programHeader file i).virtualAddress
          ((programHeader file i).fileSize / 0x1000 + 1) before).stackPosition :=
      mapMany_stackPosition _
    omega
  obtain ⟨M₁, hloaded, hbound, -, -⟩ := segments_loaded h hbefore hroom₁
  obtain ⟨M₂, hloaded₂, hbound₂⟩ := loaded_mapMany hloaded h.nonnull _ hroom
  have hpage : ∀ p, (M₂ p).isSome ↔ BoundBefore M file i p ∨
      ∃ j < (programHeader file i).fileSize / 0x1000 + 1,
        p = pageAt (programHeader file i).virtualAddress j := by
    intro p
    rw [hbound₂, hbound]
  unfold CopiesToMapped Coverable
  simp only [isSome_physical hloaded₂.owned.refines, hpage]
  constructor
  · intro hall
    have hcanonical : ∀ w, (programHeader file i).Copied w → Canonical w := fun w hw => (hall w hw).1
    refine ⟨hcanonical, fun hreach => ?_⟩
    have hsize : 0 < (programHeader file i).fileSize := by omega
    -- the last byte of the segment is in the page that the loop leaves out
    have hlast : (programHeader file i).Copied
        (((programHeader file i).virtualAddress + (programHeader file i).fileSize - 1) % 2 ^ 64) :=
      ⟨_, Nat.sub_lt hsize Nat.one_pos, by rw [Nat.add_sub_assoc hsize]⟩
    apply (hall _ hlast).2.resolve_right
    rintro ⟨j, hj, heq⟩
    exact last_page_not_pageAt hcanonical hreach hj heq
  · rintro ⟨hcanonical, hlast⟩ w hw
    refine ⟨hcanonical w hw, ?_⟩
    rcases page_of_region hw (hcanonical w hw) with hloop | ⟨hreach, heq⟩
    · exact .inr hloop
    · rw [heq]
      exact .inl (hlast hreach)

/-! ## A process and a file to load -/

/-- The bytes of a number. -/
def bytesOf (n v : ℕ) : List UInt8 := (List.range n).map fun i => UInt8.ofNat (v / 256 ^ i)

/-- A file with some program headers behind its header, and bytes behind these. -/
def executable (entry : ℕ) (headers : List ProgramHeader) (contents : List UInt8) : List UInt8 :=
  [0x7F, 0x45, 0x4C, 0x46] ++ List.replicate 20 0 ++ bytesOf 8 entry ++ bytesOf 8 64 ++ bytesOf 8 0 ++
    List.replicate 6 0 ++ bytesOf 2 56 ++ bytesOf 2 headers.length ++ List.replicate 6 0 ++
    headers.flatMap (fun h => bytesOf 4 h.segmentType ++ bytesOf 4 0 ++ bytesOf 8 h.fileOffset ++
      bytesOf 8 h.virtualAddress ++ bytesOf 8 0 ++ bytesOf 8 h.fileSize ++ bytesOf 8 h.memorySize ++
      bytesOf 8 0x1000) ++ contents

/-- A process whose tables are in the frame below those of the pool. -/
def loaderKernel : State :=
  { bootKernel with
    nodes := fun _ => ⟨0x20, 0x10⟩
    tasks := fun _ => ⟨0, 0, 0xFF000, 1, 0, 0⟩
    currentTask := 0x10
    cr3 := 0xFF000 }

/-- The tables of that process. -/
def loaderRoot : ℕ := 0xFF000 + 0xFFFF800000000000

theorem loaderKernel_owned (U : Set ℕ) (hU : ∀ p ∈ U, Canonical (4096 * p)) :
    Owned bootPlatform loaderRoot 16 loaderKernel.mmu (fun _ => none) U where
  refines := by
    apply Refines.empty bootState_pool
    · intro i _
      simp [entry, Memory.load64, Memory.load, bootState]
    · intro k _ hk
      simp only [Apart, frameAt, bootState, bootPlatform, loaderRoot]
      omega
  canonical := hU
  distinct _ _ _ _ _ hf := absurd hf (by simp)
  tables _ _ _ hf := absurd hf (by simp)
  unused _ _ _ hf := absurd hf (by simp)

theorem loaderKernel_loads {file : List UInt8} :
    Loads bootPlatform loaderRoot 16 ∅ (fun _ => none) loaderKernel file 0 where
  owned := loaderKernel_owned ∅ fun _ hp => absurd hp (Set.notMem_empty _)
  process := rfl
  active := rfl
  nonnull := by decide
  inside j hj := absurd hj (Nat.not_lt_zero j)

/-- A segment of 16 bytes at the start of a page. -/
def alignedFile : List UInt8 := executable 0x400000 [⟨1, 0, 0x400000, 0x10, 0x10⟩] []

/-- A segment of 32 bytes, of which 16 are at the end of a page. -/
def straddlingFile : List UInt8 := executable 0x400FF0 [⟨1, 0, 0x400FF0, 0x20, 0x20⟩] []

theorem atCopy_first {file : List UInt8} {s : Mmu.State} (fuel : ℕ) (hmagic : readAt file 0 1 = .ok 0x7F)
    (hnumber : readAt file 56 2 = .ok 1)
    (hmap : mapPages P root (programHeader file 0).virtualAddress (programHeader file 0).fileSize fuel
      k.mmu 0 = .ok s) : AtCopy P k root file 0 s where
  magic := hmagic
  header := ⟨1, hnumber, Nat.one_pos⟩
  mapped := ⟨fuel, k.mmu, rfl, hmap⟩

theorem copies_to_mapped_aligned :
    CopiesToMapped bootPlatform loaderRoot alignedFile 0
      (mapMany bootPlatform loaderRoot 0x400000 1 bootState) := by
  refine (copies_to_mapped_iff loaderKernel_loads
    (atCopy_first 2 (by decide +kernel) (by decide +kernel) rfl) (by decide +kernel)).mpr ?_
  have haddress : (programHeader alignedFile 0).virtualAddress = 0x400000 := by decide
  have hsize : (programHeader alignedFile 0).fileSize = 0x10 := by decide
  unfold Coverable ProgramHeader.Copied
  dsimp only
  rw [haddress, hsize]
  refine ⟨?_, fun hreach => absurd hreach (by decide)⟩
  rintro w ⟨b, hb, rfl⟩
  unfold Canonical
  omega

theorem straddling_not_mapped :
    ∃ s, AtCopy bootPlatform loaderKernel loaderRoot straddlingFile 0 s ∧
      ¬ CopiesToMapped bootPlatform loaderRoot straddlingFile 0 s := by
  refine ⟨_, atCopy_first 2 (by decide +kernel) (by decide +kernel) rfl, fun hall => ?_⟩
  have hbyte := hall 0x401000 ⟨0x10, by decide, by decide⟩
  exact absurd hbyte (by decide)

end Cutesugar.Kernel.Elf
