import Cutesugar.Kernel.Misc.Elf

/-!
# Program headers, one after the other

What the loop over the program headers of an executable has done when it comes to a header: pages
are bound from the address of every header before on, as many as the size in the file has whole
pages and one more, and the bytes of the file are copied.

- `mapMany`: the pages that the inner loop binds.
- `programHeader`: the headers of a file.
- `segments_loaded`: the state at a header.
-/

namespace Cutesugar.Kernel.Elf

open Lib Mmu Fs

variable {P : Platform} {root active count address bound fuel : ℕ} {s s' s₀ : Mmu.State}
  {M M₀ : PageMap} {U : Set ℕ} {W : ℕ → Option UInt8} {file : List UInt8}

/-! ## The loop that maps pages -/

/-- `n` pages from an address on are bound. -/
def mapMany (P : Platform) (root address n : ℕ) (s : Mmu.State) : Mmu.State :=
  (List.range n).foldl (fun s j => mapFrame P s root ((address + 0x1000 * j) % 2 ^ 64)) s

theorem mapMany_succ (n : ℕ) : mapMany P root address (n + 1) s =
    mapFrame P (mapMany P root address n s) root ((address + 0x1000 * n) % 2 ^ 64) := by
  rw [mapMany, List.range_succ, List.foldl_append]
  rfl

theorem lt_mapFrame_stackPosition (P : Platform) (s : Mmu.State) (root v : ℕ) :
    s.stackPosition < (mapFrame P s root v).stackPosition :=
  Nat.lt_of_succ_le (le_mapValue_stackPosition (kernelAllocateFrame s).2 root v _ _)

theorem mapMany_stackPosition (n : ℕ) :
    s.stackPosition + n ≤ (mapMany P root address n s).stackPosition := by
  induction n with
  | zero => exact le_rfl
  | succ n ih =>
    rw [mapMany_succ]
    have hlt := lt_mapFrame_stackPosition P (mapMany P root address n s) root
      ((address + 0x1000 * n) % 2 ^ 64)
    omega

theorem mapMany_pool (n : ℕ) : (mapMany P root address n s).memList = s.memList ∧
    (mapMany P root address n s).stackPosition ≤ s.stackPosition + 4 * n := by
  induction n with
  | zero => exact ⟨rfl, le_rfl⟩
  | succ n ih =>
    rw [mapMany_succ]
    obtain ⟨hlist, hpos⟩ := mapFrame_pool P (mapMany P root address n s) root
      ((address + 0x1000 * n) % 2 ^ 64)
    exact ⟨hlist.trans ih.1, by omega⟩

/-- A run of the loop from its `j`-th round on. -/
theorem mapPages_rounds (hbound : bound < 2 ^ 64 - 0x1000) (n j : ℕ)
    (hrounds : j + n = bound / 0x1000 + 1) (more : ℕ) :
    mapPages P root address bound (n + 1 + more) s (0x1000 * j) =
      .ok ((List.range' j n).foldl
        (fun s j => mapFrame P s root ((address + 0x1000 * j) % 2 ^ 64)) s) := by
  induction n generalizing s j with
  | zero =>
    have hend : ¬ 0x1000 * j ≤ bound := by omega
    rw [Nat.zero_add, Nat.add_comm, mapPages, if_neg hend]
    rfl
  | succ n ih =>
    have hgo : 0x1000 * j ≤ bound := by omega
    have hnext : (0x1000 * j + 0x1000) % 2 ^ 64 = 0x1000 * (j + 1) := by omega
    have hfuel : n + 1 + 1 + more = (n + 1 + more) + 1 := by omega
    rw [hfuel, mapPages, if_pos hgo, hnext, ih (j + 1) (by omega), List.range'_succ,
      List.foldl_cons]

/-- More rounds make no difference to a run that has come to its end. -/
theorem mapPages_mono {x : ℕ} (more : ℕ) (h : mapPages P root address bound fuel s x = .ok s') :
    mapPages P root address bound (fuel + more) s x = .ok s' := by
  induction fuel generalizing s x with
  | zero => exact absurd h (by simp [mapPages])
  | succ fuel ih =>
    rw [Nat.add_right_comm, mapPages]
    rw [mapPages] at h
    split_ifs at h ⊢ with hgo
    · exact ih h
    · exact h

/-- A bound that no multiple of the page size exceeds. -/
theorem mapPages_stuck (hbound : 2 ^ 64 - 0x1000 ≤ bound) {x : ℕ} (hx : x % 0x1000 = 0)
    (hlt : x < 2 ^ 64) : mapPages P root address bound fuel s x = .error .stuck := by
  induction fuel generalizing s x with
  | zero => rfl
  | succ fuel ih =>
    have hgo : x ≤ bound := by omega
    rw [mapPages, if_pos hgo]
    exact ih (by omega) (Nat.mod_lt _ (by decide))

/-- **The loop**: it comes to an end unless its bound is too large, and has bound a page for every
whole page in its bound and one more. -/
theorem mapPages_eq_ok : (∃ fuel, mapPages P root address bound fuel s 0 = .ok s') ↔
    bound < 2 ^ 64 - 0x1000 ∧ s' = mapMany P root address (bound / 0x1000 + 1) s := by
  have hrun (hbound : bound < 2 ^ 64 - 0x1000) (more : ℕ) :
      mapPages P root address bound (bound / 0x1000 + 1 + 1 + more) s 0 =
        .ok (mapMany P root address (bound / 0x1000 + 1) s) := by
    rw [mapMany, List.range_eq_range']
    exact mapPages_rounds hbound (bound / 0x1000 + 1) 0 (Nat.zero_add _) more
  constructor
  · rintro ⟨fuel, hok⟩
    have hbound : bound < 2 ^ 64 - 0x1000 := by
      by_contra hlarge
      rw [mapPages_stuck (by omega) rfl (by decide)] at hok
      exact absurd hok (by simp)
    have hmore := mapPages_mono (bound / 0x1000 + 1 + 1) hok
    rw [Nat.add_comm fuel, hrun hbound fuel] at hmore
    exact ⟨hbound, (Except.ok.inj hmore).symm⟩
  · rintro ⟨hbound, rfl⟩
    exact ⟨_, hrun hbound 0⟩

/-- The page of the `j`-th round. -/
def pageAt (address j : ℕ) : ℕ := canon ((address + 0x1000 * j) % 2 ^ 64) / 4096

theorem PageMap.isSome_map (p f q : ℕ) :
    (M.map p f q).isSome ↔ (M q).isSome ∨ q = p := by
  unfold PageMap.map
  split_ifs with hsome
  · constructor
    · exact Or.inl
    · rintro (h | rfl)
      · exact h
      · exact hsome
  · rcases eq_or_ne q p with rfl | hne
    · rw [Function.update_self]
      exact iff_of_true rfl (.inr rfl)
    · rw [Function.update_of_ne hne, or_iff_left hne]

/-- **The pages of the loop** are bound by it. -/
theorem loaded_mapMany (h : Loaded P root count U s₀ M₀ s M W) (hroot : root ≠ 0) (n : ℕ)
    (hroom : (mapMany P root address n s).stackPosition ≤ count) :
    ∃ M', Loaded P root count U s₀ M₀ (mapMany P root address n s) M' W ∧
      ∀ p, (M' p).isSome ↔ (M p).isSome ∨ ∃ j < n, p = pageAt address j := by
  induction n with
  | zero => exact ⟨M, h, fun p => by simp⟩
  | succ n ih =>
    rw [mapMany_succ] at hroom ⊢
    have hlt := lt_mapFrame_stackPosition P (mapMany P root address n s) root
      ((address + 0x1000 * n) % 2 ^ 64)
    obtain ⟨M', hloaded, hbound⟩ := ih (hlt.le.trans hroom)
    refine ⟨_, hloaded.mapFrame hroot _ hroom, fun p => ?_⟩
    rw [PageMap.isSome_map, hbound, or_assoc]
    refine or_congr_right ⟨?_, ?_⟩
    · rintro (⟨j, hj, rfl⟩ | rfl)
      · exact ⟨j, Nat.lt_succ_of_lt hj, rfl⟩
      · exact ⟨n, Nat.lt_succ_self n, rfl⟩
    · rintro ⟨j, hj, rfl⟩
      rcases Nat.lt_succ_iff_lt_or_eq.mp hj with hlt | rfl
      · exact .inl ⟨j, hlt, rfl⟩
      · exact .inr rfl

/-! ## Copying from the file -/

/-- The bytes of the file that are copied. -/
def slice (file : List UInt8) (place size : ℕ) : List UInt8 :=
  (file.drop (place % 2 ^ 64)).take size

theorem memcpyFrom_eq {place size : ℕ} : memcpyFrom P root s address file place size =
    match copyTo P root s.mem address (slice file place size) with
    | none => .error .unmapped
    | some m => if (slice file place size).length < size then .error .overread
      else .ok (s.withMem m) := rfl

/-- **A copy** to pages of the set. -/
theorem loaded_memcpyFrom (h : Loaded P root count U s₀ M₀ s M W) {place size : ℕ}
    (hU : ∀ w, Region address size w → Canonical w → w / 4096 ∈ U)
    (hok : memcpyFrom P root s address file place size = .ok s') :
    (∀ w, Region address size w → Canonical w ∧ (M (w / 4096)).isSome) ∧
      (slice file place size).length = size ∧ s'.stackPosition = s.stackPosition ∧
      Loaded P root count U s₀ M₀ s' M (put W address (slice file place size)) := by
  have hle : (slice file place size).length ≤ size := by
    rw [slice, List.length_take]
    exact Nat.min_le_left ..
  have hinside : ∀ w, Region address (slice file place size).length w → Canonical w →
      w / 4096 ∈ U := by
    rintro w ⟨k, hk, rfl⟩
    exact hU _ ⟨k, hk.trans_le hle, rfl⟩
  have hcopy := h.copyTo hinside
  rw [memcpyFrom_eq] at hok
  cases hm : copyTo P root s.mem address (slice file place size) with
  | none =>
    rw [hm] at hok
    exact absurd hok (by simp)
  | some m =>
    rw [hm] at hok hcopy
    dsimp only at hok
    split_ifs at hok with hshort
    obtain rfl := Except.ok.inj hok
    have hlen : (slice file place size).length = size := le_antisymm hle (Nat.le_of_not_lt hshort)
    rw [hlen] at hcopy
    exact ⟨hcopy.1, hlen, rfl, hcopy.2⟩

theorem memcpyFrom_pool {place size : ℕ} (hok : memcpyFrom P root s address file place size = .ok s') :
    s'.memList = s.memList ∧ s'.stackPosition = s.stackPosition := by
  rw [memcpyFrom_eq] at hok
  split at hok
  · exact absurd hok (by simp)
  · split_ifs at hok
    obtain rfl := Except.ok.inj hok
    exact ⟨rfl, rfl⟩

/-- When a copy succeeds. -/
theorem memcpyFrom_succeeds (h : Loaded P root count U s₀ M₀ s M W) {place size : ℕ}
    (hU : ∀ w, Region address size w → Canonical w → w / 4096 ∈ U)
    (hlen : (slice file place size).length = size)
    (hbound : ∀ w, Region address size w → Canonical w ∧ (M (w / 4096)).isSome) :
    ∃ s', memcpyFrom P root s address file place size = .ok s' := by
  have hinside : ∀ w, Region address (slice file place size).length w → Canonical w → w / 4096 ∈ U := by
    rw [hlen]
    exact hU
  have hcopy := h.copyTo hinside
  rw [hlen] at hcopy
  rw [memcpyFrom_eq]
  cases hm : copyTo P root s.mem address (slice file place size) with
  | none =>
    rw [hm] at hcopy
    exact absurd hbound hcopy
  | some m =>
    dsimp only
    rw [if_neg (by rw [hlen]; exact lt_irrefl _)]
    exact ⟨_, rfl⟩

/-! ## The headers of a file -/

/-- `struct ELFProgramHeader`. -/
structure ProgramHeader where
  segmentType : ℕ
  fileOffset : ℕ
  virtualAddress : ℕ
  fileSize : ℕ
  memorySize : ℕ
  deriving DecidableEq

/-- The place of a program header. -/
def headerPlace (file : List UInt8) (i : ℕ) : ℕ := field file 32 8 + i * field file 54 2

def programHeader (file : List UInt8) (i : ℕ) : ProgramHeader :=
  let place := headerPlace file i
  ⟨field file (place % 2 ^ 64) 4, field file ((place + 8) % 2 ^ 64) 8,
    field file ((place + 16) % 2 ^ 64) 8, field file ((place + 32) % 2 ^ 64) 8,
    field file ((place + 40) % 2 ^ 64) 8⟩

/-- The bytes of a segment that are in the file. -/
def ProgramHeader.contents (h : ProgramHeader) (file : List UInt8) : List UInt8 :=
  slice file h.fileOffset h.fileSize

/-- The addresses that a segment is copied to. -/
def ProgramHeader.Copied (h : ProgramHeader) (w : ℕ) : Prop :=
  Region h.virtualAddress h.fileSize w

theorem readAt_eq_ok {place n v : ℕ} : readAt file place n = .ok v ↔
    place % 2 ^ 64 + n ≤ file.length ∧ field file (place % 2 ^ 64) n = v := by
  unfold readAt
  split_ifs with h
  · exact ⟨fun heq => ⟨h, Except.ok.inj heq⟩, fun heq => congrArg Except.ok heq.2⟩
  · exact iff_of_false (by simp) fun heq => h heq.1

theorem field64_lt (file : List UInt8) (place : ℕ) : field file place 8 < 2 ^ 64 :=
  (field_lt file place 8).trans_eq (by decide)

/-- The fields of a header that are read lie in the file. -/
def Readable (file : List UInt8) (place : ℕ) : Prop :=
  (place + 32) % 2 ^ 64 + 8 ≤ file.length ∧ (place + 16) % 2 ^ 64 + 8 ≤ file.length ∧
    (place + 8) % 2 ^ 64 + 8 ≤ file.length

/-- **What one header does.** -/
theorem loadSegment_eq_ok {place : ℕ} : loadSegment P fuel root active file s place = .ok s' ↔
    Readable file place ∧
      ∃ s₁, mapPages P root (field file ((place + 16) % 2 ^ 64) 8)
          (field file ((place + 32) % 2 ^ 64) 8) fuel s 0 = .ok s₁ ∧
        memcpyFrom P active s₁ (field file ((place + 16) % 2 ^ 64) 8) file
          (field file ((place + 8) % 2 ^ 64) 8) (field file ((place + 32) % 2 ^ 64) 8) = .ok s' := by
  constructor
  · intro h
    obtain ⟨size, hsize, h⟩ := Libc.bind_eq_ok.mp h
    obtain ⟨address, haddress, h⟩ := Libc.bind_eq_ok.mp h
    obtain ⟨s₁, hmap, h⟩ := Libc.bind_eq_ok.mp h
    obtain ⟨offset, hoffset, h⟩ := Libc.bind_eq_ok.mp h
    obtain ⟨hsizes, rfl⟩ := readAt_eq_ok.mp hsize
    obtain ⟨haddresses, rfl⟩ := readAt_eq_ok.mp haddress
    obtain ⟨hoffsets, rfl⟩ := readAt_eq_ok.mp hoffset
    exact ⟨⟨hsizes, haddresses, hoffsets⟩, s₁, hmap, h⟩
  · rintro ⟨⟨hsize, haddress, hoffset⟩, s₁, hmap, h⟩
    apply Libc.bind_eq_ok.mpr ⟨_, readAt_eq_ok.mpr ⟨hsize, rfl⟩, _⟩
    apply Libc.bind_eq_ok.mpr ⟨_, readAt_eq_ok.mpr ⟨haddress, rfl⟩, _⟩
    apply Libc.bind_eq_ok.mpr ⟨s₁, hmap, _⟩
    exact Libc.bind_eq_ok.mpr ⟨_, readAt_eq_ok.mpr ⟨hoffset, rfl⟩, h⟩

/-- The last of some headers. -/
theorem loadSegments_succ {k : State} {n : ℕ} (hroot : processRoot P k = .ok root) :
    loadSegments P fuel k file (n + 1) s = .ok s' ↔
      ∃ s₁, loadSegments P fuel k file n s = .ok s₁ ∧ 56 ≤ file.length ∧
        Readable file (headerPlace file n) ∧
        ∃ s₂, mapPages P root (programHeader file n).virtualAddress (programHeader file n).fileSize
            fuel s₁ 0 = .ok s₂ ∧
          memcpyFrom P (activeRoot P k) s₂ (programHeader file n).virtualAddress file
            (programHeader file n).fileOffset (programHeader file n).fileSize = .ok s' := by
  rw [loadSegments, List.range_succ, List.foldlM_append, Libc.bind_eq_ok]
  refine exists_congr fun s₁ => and_congr_right fun _ => ?_
  rw [List.foldlM_cons, Libc.bind_eq_ok]
  constructor
  · rintro ⟨s₃, hstep, hlast⟩
    obtain rfl := Except.ok.inj hlast
    obtain ⟨root', hroot', hstep⟩ := Libc.bind_eq_ok.mp hstep
    obtain rfl := Except.ok.inj (hroot.symm.trans hroot')
    obtain ⟨tableOffset, htable, hstep⟩ := Libc.bind_eq_ok.mp hstep
    obtain ⟨entrySize, hentry, hstep⟩ := Libc.bind_eq_ok.mp hstep
    obtain ⟨-, rfl⟩ := readAt_eq_ok.mp htable
    obtain ⟨hlen, rfl⟩ := readAt_eq_ok.mp hentry
    exact ⟨hlen, loadSegment_eq_ok.mp hstep⟩
  · rintro ⟨hlen, hstep⟩
    refine ⟨s', ?_, rfl⟩
    apply Libc.bind_eq_ok.mpr ⟨root, hroot, _⟩
    apply Libc.bind_eq_ok.mpr ⟨_, readAt_eq_ok.mpr ⟨(by decide : 32 + 8 ≤ 56).trans hlen, rfl⟩, _⟩
    apply Libc.bind_eq_ok.mpr ⟨_, readAt_eq_ok.mpr ⟨hlen, rfl⟩, _⟩
    exact loadSegment_eq_ok.mpr hstep

/-! ## The state at a header -/

/-- The pages that are bound before a header is come to. -/
def BoundBefore (M : PageMap) (file : List UInt8) (i p : ℕ) : Prop :=
  (M p).isSome ∨ ∃ j < i, ∃ x < (programHeader file j).fileSize / 0x1000 + 1,
    p = pageAt (programHeader file j).virtualAddress x

/-- The bytes that are copied before a header is come to. -/
def written (file : List UInt8) : ℕ → ℕ → Option UInt8
  | 0 => fun _ => none
  | n + 1 => put (written file n) (programHeader file n).virtualAddress
    ((programHeader file n).contents file)

theorem BoundBefore.succ {i p : ℕ} : BoundBefore M file (i + 1) p ↔ BoundBefore M file i p ∨
    ∃ x < (programHeader file i).fileSize / 0x1000 + 1,
      p = pageAt (programHeader file i).virtualAddress x := by
  unfold BoundBefore
  rw [or_assoc]
  refine or_congr_right ⟨?_, ?_⟩
  · rintro ⟨j, hj, hpage⟩
    rcases Nat.lt_succ_iff_lt_or_eq.mp hj with hlt | rfl
    · exact .inl ⟨j, hlt, hpage⟩
    · exact .inr hpage
  · rintro (⟨j, hj, hpage⟩ | hpage)
    · exact ⟨j, Nat.lt_succ_of_lt hj, hpage⟩
    · exact ⟨i, Nat.lt_succ_self i, hpage⟩

/-- The loader is given the tables of the current process, which are the ones in use, and copies the
first `i` segments to pages of the set. -/
structure Loads (P : Platform) (root count : ℕ) (U : Set ℕ) (M : PageMap) (k : State)
    (file : List UInt8) (i : ℕ) : Prop where
  owned : Owned P root count k.mmu M U
  process : processRoot P k = .ok root
  active : activeRoot P k = root
  nonnull : root ≠ 0
  inside : ∀ j < i, ∀ w, (programHeader file j).Copied w → Canonical w → w / 4096 ∈ U

/-- **The state at a header**. -/
theorem segments_loaded {k : State} {i : ℕ} (h : Loads P root count U M k file i)
    (hrun : loadSegments P fuel k file i k.mmu = .ok s) (hroom : s.stackPosition ≤ count) :
    ∃ M', Loaded P root count U k.mmu M s M' (written file i) ∧
      (∀ p, (M' p).isSome ↔ BoundBefore M file i p) ∧
      (∀ j < i, ∀ w, (programHeader file j).Copied w → Canonical w ∧ BoundBefore M file (j + 1) (w / 4096)) ∧
      ∀ j < i, ((programHeader file j).contents file).length = (programHeader file j).fileSize := by
  induction i generalizing s with
  | zero =>
    obtain rfl := Except.ok.inj hrun
    refine ⟨M, Loaded.start h.owned, fun p => ?_, fun j hj => absurd hj (Nat.not_lt_zero j),
      fun j hj => absurd hj (Nat.not_lt_zero j)⟩
    simp [BoundBefore]
  | succ i ih =>
    obtain ⟨s₁, hbefore, -, -, s₂, hmap, hcopy⟩ := (loadSegments_succ h.process).mp hrun
    obtain ⟨-, rfl⟩ := mapPages_eq_ok.mp ⟨fuel, hmap⟩
    rw [h.active] at hcopy
    have hpos := (memcpyFrom_pool hcopy).2
    rw [hpos] at hroom
    -- mapping only takes frames, so the bound held before
    have hmono : s₁.stackPosition + ((programHeader file i).fileSize / 0x1000 + 1) ≤
        (mapMany P root (programHeader file i).virtualAddress
          ((programHeader file i).fileSize / 0x1000 + 1) s₁).stackPosition :=
      mapMany_stackPosition _
    obtain ⟨M₁, hloaded₁, hbound₁, hcopied₁, hlen₁⟩ := ih
      ⟨h.owned, h.process, h.active, h.nonnull, fun j hj => h.inside j (Nat.lt_succ_of_lt hj)⟩ hbefore
      (by omega)
    obtain ⟨M₂, hloaded₂, hbound₂⟩ := loaded_mapMany hloaded₁ h.nonnull _ hroom
    obtain ⟨hcopied, hlen, -, hloaded⟩ := loaded_memcpyFrom hloaded₂
      (fun w hw => h.inside i (Nat.lt_succ_self i) w hw) hcopy
    -- the pages of this header, and those of the headers before
    have hbound : ∀ p, (M₂ p).isSome ↔ BoundBefore M file (i + 1) p := by
      intro p
      rw [hbound₂, hbound₁, BoundBefore.succ]
    refine ⟨M₂, hloaded, hbound, fun j hj w hw => ?_, fun j hj => ?_⟩
    · rcases Nat.lt_succ_iff_lt_or_eq.mp hj with hlt | rfl
      · exact hcopied₁ j hlt w hw
      · obtain ⟨hcanonical, hsome⟩ := hcopied w hw
        exact ⟨hcanonical, (hbound _).mp hsome⟩
    · rcases Nat.lt_succ_iff_lt_or_eq.mp hj with hlt | rfl
      · exact hlen₁ j hlt
      · exact hlen

/-! ## When the headers are loaded -/

/-- The pages that the loops of the headers before one go through. -/
def pagesBefore (file : List UInt8) : ℕ → ℕ
  | 0 => 0
  | n + 1 => pagesBefore file n + ((programHeader file n).fileSize / 0x1000 + 1)

/-- More rounds make no difference. -/
theorem loadSegments_mono {k : State} {n : ℕ} (hroot : processRoot P k = .ok root) (more : ℕ)
    (h : loadSegments P fuel k file n s = .ok s') :
    loadSegments P (fuel + more) k file n s = .ok s' := by
  induction n generalizing s' with
  | zero => exact h
  | succ n ih =>
    obtain ⟨s₁, hbefore, hlen, hread, s₂, hmap, hcopy⟩ := (loadSegments_succ hroot).mp h
    exact (loadSegments_succ hroot).mpr
      ⟨s₁, ih hbefore, hlen, hread, s₂, mapPages_mono more hmap, hcopy⟩

/-- What the headers take from the pool. -/
theorem loadSegments_pool {k : State} {n : ℕ} (hroot : processRoot P k = .ok root)
    (h : loadSegments P fuel k file n s = .ok s') : s'.memList = s.memList ∧
      s.stackPosition + pagesBefore file n ≤ s'.stackPosition ∧
        s'.stackPosition ≤ s.stackPosition + 4 * pagesBefore file n := by
  induction n generalizing s' with
  | zero =>
    obtain rfl := Except.ok.inj h
    exact ⟨rfl, le_rfl, le_rfl⟩
  | succ n ih =>
    obtain ⟨s₁, hbefore, -, -, s₂, hmap, hcopy⟩ := (loadSegments_succ hroot).mp h
    obtain ⟨-, rfl⟩ := mapPages_eq_ok.mp ⟨fuel, hmap⟩
    obtain ⟨hlist, hlower, hupper⟩ := ih hbefore
    obtain ⟨hsame, hpos⟩ := memcpyFrom_pool hcopy
    have hlist' : (mapMany P root (programHeader file n).virtualAddress
        ((programHeader file n).fileSize / 0x1000 + 1) s₁).memList = s₁.memList := (mapMany_pool _).1
    have hupper' : (mapMany P root (programHeader file n).virtualAddress
        ((programHeader file n).fileSize / 0x1000 + 1) s₁).stackPosition ≤
          s₁.stackPosition + 4 * ((programHeader file n).fileSize / 0x1000 + 1) := (mapMany_pool _).2
    have hlower' : s₁.stackPosition + ((programHeader file n).fileSize / 0x1000 + 1) ≤
        (mapMany P root (programHeader file n).virtualAddress
          ((programHeader file n).fileSize / 0x1000 + 1) s₁).stackPosition :=
      mapMany_stackPosition _
    refine ⟨(hsame.trans hlist').trans hlist, ?_, ?_⟩
    · rw [pagesBefore]
      omega
    · rw [pagesBefore]
      omega

/-- The headers up to each one. -/
theorem loadSegments_at {k : State} {n : ℕ} (hroot : processRoot P k = .ok root)
    (h : loadSegments P fuel k file n s = .ok s') {j : ℕ} (hj : j ≤ n) :
    ∃ s₁, loadSegments P fuel k file j s = .ok s₁ := by
  induction n generalizing s' with
  | zero =>
    obtain rfl : j = 0 := Nat.le_zero.mp hj
    exact ⟨s', h⟩
  | succ n ih =>
    obtain ⟨s₁, hbefore, -⟩ := (loadSegments_succ hroot).mp h
    rcases Nat.le_succ_iff.mp hj with hle | rfl
    · exact ih hbefore hle
    · exact ⟨s', h⟩

theorem pagesBefore_mono {n j : ℕ} (hj : j ≤ n) : pagesBefore file j ≤ pagesBefore file n := by
  induction hj with
  | refl => exact le_rfl
  | step _ ih => exact ih.trans (Nat.le_add_right ..)

/-- A header that can be loaded behind those before it. -/
structure Fits (M : PageMap) (file : List UInt8) (j : ℕ) : Prop where
  table : 56 ≤ file.length
  readable : Readable file (headerPlace file j)
  loop : (programHeader file j).fileSize < 2 ^ 64 - 0x1000
  contents : ((programHeader file j).contents file).length = (programHeader file j).fileSize
  bound : ∀ w, (programHeader file j).Copied w → Canonical w ∧ BoundBefore M file (j + 1) (w / 4096)

theorem Loads.initial {k : State} {n j : ℕ} (h : Loads P root count U M k file n) (hj : j ≤ n) :
    Loads P root count U M k file j :=
  ⟨h.owned, h.process, h.active, h.nonnull, fun l hl => h.inside l (hl.trans_le hj)⟩

/-- **The headers are loaded** exactly if each of them fits behind those before it. -/
theorem loadSegments_succeeds_iff {k : State} {n : ℕ} (h : Loads P root count U M k file n)
    (hroom : k.mmu.stackPosition + 4 * pagesBefore file n ≤ count) :
    (∃ fuel s, loadSegments P fuel k file n k.mmu = .ok s) ↔ ∀ j < n, Fits M file j := by
  constructor
  · rintro ⟨fuel, s, hrun⟩ j hj
    have hle : j + 1 ≤ n := hj
    obtain ⟨s', hnext⟩ := loadSegments_at h.process hrun hle
    obtain ⟨-, -, hpos⟩ := loadSegments_pool h.process hnext
    have hmono : pagesBefore file (j + 1) ≤ pagesBefore file n := pagesBefore_mono hle
    obtain ⟨-, -, -, hcopied, hlen⟩ := segments_loaded (h.initial hle) hnext
      (by omega)
    obtain ⟨s₁, -, htable, hread, s₂, hmap, -⟩ := (loadSegments_succ h.process).mp hnext
    exact { table := htable
            readable := hread
            loop := (mapPages_eq_ok.mp ⟨fuel, hmap⟩).1
            contents := hlen j (Nat.lt_succ_self j)
            bound := hcopied j (Nat.lt_succ_self j) }
  · intro hfits
    induction n with
    | zero => exact ⟨0, k.mmu, rfl⟩
    | succ n ih =>
      have hfit := hfits n (Nat.lt_succ_self n)
      rw [pagesBefore] at hroom
      obtain ⟨fuel₁, s₁, hbefore⟩ := ih (h.initial (Nat.le_succ n)) (by omega)
        fun j hj => hfits j (Nat.lt_succ_of_lt hj)
      obtain ⟨-, -, hpos⟩ := loadSegments_pool h.process hbefore
      obtain ⟨M₁, hloaded₁, hbound₁, -, -⟩ := segments_loaded (h.initial (Nat.le_succ n)) hbefore
        (by omega)
      -- the loop of the last header
      obtain ⟨fuel₂, hmap⟩ := mapPages_eq_ok.mpr ⟨hfit.loop, Eq.refl (mapMany P root
        (programHeader file n).virtualAddress ((programHeader file n).fileSize / 0x1000 + 1) s₁)⟩
      have hpos₂ : (mapMany P root (programHeader file n).virtualAddress
          ((programHeader file n).fileSize / 0x1000 + 1) s₁).stackPosition ≤
            s₁.stackPosition + 4 * ((programHeader file n).fileSize / 0x1000 + 1) := (mapMany_pool _).2
      obtain ⟨M₂, hloaded₂, hbound₂⟩ := loaded_mapMany hloaded₁ h.nonnull _ (hpos₂.trans (by omega))
      -- its copy
      obtain ⟨s', hcopy⟩ := memcpyFrom_succeeds hloaded₂
        (fun w hw => h.inside n (Nat.lt_succ_self n) w hw) hfit.contents fun w hw => by
          obtain ⟨hcanonical, hsome⟩ := hfit.bound w hw
          rw [hbound₂, hbound₁]
          exact ⟨hcanonical, BoundBefore.succ.mp hsome⟩
      have hmap' := mapPages_mono fuel₁ hmap
      rw [Nat.add_comm] at hmap'
      refine ⟨fuel₁ + fuel₂, s', (loadSegments_succ h.process).mpr
        ⟨s₁, loadSegments_mono h.process fuel₂ hbefore, hfit.table, hfit.readable, _, hmap', ?_⟩⟩
      rw [h.active]
      exact hcopy

end Cutesugar.Kernel.Elf
