import Cutesugar.Kernel.Misc.ElfTail

/-!
# Executables of any content

Nothing that the loader takes from a file is checked. What it reads and maps and writes is listed here
access by access, for every file, and the headers are found for which all of it stays where it belongs.

- `Access`, `Accessed`: the accesses of a run.
- `Acceptable`: the headers that do no harm.
- `hostile_iff`: when a file is refused or does no harm.
-/

namespace Cutesugar.Kernel.Elf

open Lib Mmu Fs

/-! ## Accesses -/

/-- An access to the copy of the file, or to a virtual address. -/
inductive Access where
  | read (place n : ℕ)
  | map (address : ℕ)
  | write (address n : ℕ)

/-- Reads stay within the copy of the file, and the rest in the lower half. -/
def Access.Inside (file : List UInt8) : Access → Prop
  | .read place n => n = 0 ∨ place % 2 ^ 64 + n ≤ file.length
  | .map address => address < 2 ^ 47
  | .write address n => ∀ w, Region address n w → w < 2 ^ 47

/-- The loop comes to a header: those before it are loaded. -/
structure Comes (P : Platform) (k : State) (file : List UInt8) (i : ℕ) : Prop where
  magic : field file 0 1 = 0x7F
  header : i < headerCount file
  loaded : ∃ fuel s, loadSegments P fuel k file i k.mmu = .ok s

/-- The accesses of `KernelLoadElfExecutable`. `memcpy` is called when the loop over the pages has come
to its end, and reads and writes as many bytes as it is told. -/
inductive Accessed (P : Platform) (k : State) (file : List UInt8) : Access → Prop
  | magic : Accessed P k file (.read 0 1)
  | number (h : field file 0 1 = 0x7F) : Accessed P k file (.read 56 2)
  | tableOffset {i : ℕ} (h : Comes P k file i) : Accessed P k file (.read 32 8)
  | entrySize {i : ℕ} (h : Comes P k file i) : Accessed P k file (.read 54 2)
  | fileSize {i : ℕ} (h : Comes P k file i) : Accessed P k file (.read (headerPlace file i + 32) 8)
  | virtualAddress {i : ℕ} (h : Comes P k file i) :
    Accessed P k file (.read (headerPlace file i + 16) 8)
  | page {i x : ℕ} (h : Comes P k file i) (hx : 0x1000 * x ≤ (programHeader file i).fileSize) :
    Accessed P k file (.map (((programHeader file i).virtualAddress + 0x1000 * x) % 2 ^ 64))
  | fileOffset {i : ℕ} (h : Comes P k file i) (hend : (programHeader file i).fileSize < 2 ^ 64 - 0x1000) :
    Accessed P k file (.read (headerPlace file i + 8) 8)
  | source {i : ℕ} (h : Comes P k file i) (hend : (programHeader file i).fileSize < 2 ^ 64 - 0x1000) :
    Accessed P k file (.read (programHeader file i).fileOffset (programHeader file i).fileSize)
  | target {i : ℕ} (h : Comes P k file i) (hend : (programHeader file i).fileSize < 2 ^ 64 - 0x1000) :
    Accessed P k file (.write (programHeader file i).virtualAddress (programHeader file i).fileSize)
  | entry (h : field file 0 1 = 0x7F)
      (hend : ∃ fuel s, loadSegments P fuel k file (headerCount file) k.mmu = .ok s) :
    Accessed P k file (.read 24 8)

/-- All accesses stay where they belong. -/
def Contained (P : Platform) (k : State) (file : List UInt8) : Prop :=
  ∀ a, Accessed P k file a → a.Inside file

/-- The result is 0, and but for the copy of the file nothing has changed. -/
def Rejected (P : Platform) (I : Image) (read : ReadCall → Except Fault UInt8) (s : FsState) (fo : ℕ) :
    Prop :=
  ∃ fuel s', kernelLoadElfExecutable P I read fuel s fo = .ok (0, s') ∧
    (s' = s ∨ s' = { s with kernel := (malloc s.kernel).2 })

/-! ## Headers that do no harm -/

/-- The header and the bytes of its segment lie in the file, the segment lies in the lower half, and
the last page of the loop does not start at its end. -/
structure Acceptable (file : List UInt8) (i : ℕ) : Prop where
  readable : Readable file (headerPlace file i)
  source : (programHeader file i).fileSize = 0 ∨
    (programHeader file i).fileOffset + (programHeader file i).fileSize ≤ file.length
  pages : (programHeader file i).virtualAddress + 0x1000 * ((programHeader file i).fileSize / 0x1000) <
    2 ^ 47
  target : (programHeader file i).virtualAddress + (programHeader file i).fileSize ≤ 2 ^ 47

variable {P : Platform} {I : Image} {root fuel i n place : ℕ} {s s' : Mmu.State} {file : List UInt8}
  {k : State}

/-- Pages from an address of the lower half on leave it at its end first. -/
theorem pages_below {address : ℕ} (haddress : address < 2 ^ 64)
    (h : ∀ x, 0x1000 * x ≤ n → (address + 0x1000 * x) % 2 ^ 64 < 2 ^ 47) :
    address + 0x1000 * (n / 0x1000) < 2 ^ 47 := by
  by_contra hout
  have hfirst := h 0 (Nat.zero_le n)
  -- the first page behind the lower half
  have hleave := h ((2 ^ 47 - address + 0xFFF) / 0x1000) (by omega)
  omega

theorem target_below {address : ℕ} (haddress : address < 2 ^ 47)
    (h : ∀ w, Region address n w → w < 2 ^ 47) : address + n ≤ 2 ^ 47 := by
  by_contra hout
  have hend := h _ ⟨2 ^ 47 - address, by omega, rfl⟩
  omega

theorem Accessed.readable (h : Comes P k file i) (hend : (programHeader file i).fileSize < 2 ^ 64 - 0x1000)
    (hinside : Contained P k file) : Readable file (headerPlace file i) := by
  have hsize := hinside _ (.fileSize h)
  have haddress := hinside _ (.virtualAddress h)
  have hoffset := hinside _ (.fileOffset h hend)
  exact ⟨hsize.resolve_left (by decide), haddress.resolve_left (by decide),
    hoffset.resolve_left (by decide)⟩

/-- **A header that does no harm**, by the accesses it makes. -/
theorem acceptable_of_contained (hinside : Contained P k file) (h : Comes P k file i) :
    Acceptable file i := by
  have haddress : (programHeader file i).virtualAddress < 2 ^ 64 := field64_lt ..
  have hoffset : (programHeader file i).fileOffset < 2 ^ 64 := field64_lt ..
  have hpages := pages_below haddress fun x hx => hinside _ (.page h hx)
  have hend : (programHeader file i).fileSize < 2 ^ 64 - 0x1000 := by omega
  refine ⟨Accessed.readable h hend hinside, ?_, hpages, ?_⟩
  · have hsource := hinside _ (.source h hend)
    rwa [Access.Inside, Nat.mod_eq_of_lt hoffset] at hsource
  · exact target_below (by omega) (hinside _ (.target h hend))

/-- All accesses stay where they belong if the headers that the loop comes to do no harm. -/
theorem contained_of_acceptable (hlen : 58 ≤ file.length)
    (h : ∀ i, Comes P k file i → Acceptable file i) : Contained P k file := by
  intro a ha
  cases ha with
  | magic => exact .inr (by omega)
  | number => exact .inr (by omega)
  | tableOffset => exact .inr (by omega)
  | entrySize => exact .inr (by omega)
  | fileSize hi => exact .inr (h _ hi).readable.1
  | virtualAddress hi => exact .inr (h _ hi).readable.2.1
  | page hi hx =>
    have hpages := (h _ hi).pages
    change _ < _
    omega
  | fileOffset hi => exact .inr (h _ hi).readable.2.2
  | @source i hi =>
    have hoffset : (programHeader file i).fileOffset < 2 ^ 64 := field64_lt ..
    rw [Access.Inside, Nat.mod_eq_of_lt hoffset]
    exact (h _ hi).source
  | target hi =>
    have htarget := (h _ hi).target
    rintro w ⟨b, hb, rfl⟩
    omega
  | entry => exact .inr (by omega)

/-! ## No read outside of the file -/

theorem mapPages_error {root address bound fuel : ℕ} {x : ℕ} {e : Fault}
    (h : mapPages P root address bound fuel s x = .error e) : e = .stuck := by
  induction fuel generalizing s x with
  | zero => exact (Except.error.inj h).symm
  | succ fuel ih =>
    rw [mapPages] at h
    split_ifs at h
    exact ih h

theorem readAt_ne_error {e : Fault} (h : place % 2 ^ 64 + n ≤ file.length) :
    readAt file place n ≠ .error e := by
  rw [readAt, if_pos h]
  simp

/-- A header that does no harm is not read beyond the file. -/
theorem loadSegment_not_overread {active : ℕ} (h : Acceptable file i) :
    loadSegment P fuel root active file s (headerPlace file i) ≠ .error .overread := by
  intro herror
  obtain hsize | ⟨size, hsize, herror⟩ := Libc.bind_eq_error.mp herror
  · exact readAt_ne_error h.readable.1 hsize
  obtain haddress | ⟨address, haddress, herror⟩ := Libc.bind_eq_error.mp herror
  · exact readAt_ne_error h.readable.2.1 haddress
  obtain hmap | ⟨s₁, hmap, herror⟩ := Libc.bind_eq_error.mp herror
  · exact absurd (mapPages_error hmap) (by decide)
  obtain hoffset | ⟨offset, hoffset, herror⟩ := Libc.bind_eq_error.mp herror
  · exact readAt_ne_error h.readable.2.2 hoffset
  obtain ⟨-, rfl⟩ := readAt_eq_ok.mp hsize
  obtain ⟨-, rfl⟩ := readAt_eq_ok.mp haddress
  obtain ⟨-, rfl⟩ := readAt_eq_ok.mp hoffset
  change memcpyFrom P active s₁ (programHeader file i).virtualAddress file
    (programHeader file i).fileOffset (programHeader file i).fileSize = _ at herror
  have hlen : (slice file (programHeader file i).fileOffset (programHeader file i).fileSize).length =
      (programHeader file i).fileSize := by
    have hoffset : (programHeader file i).fileOffset < 2 ^ 64 := field64_lt ..
    rw [slice, List.length_take, List.length_drop, Nat.mod_eq_of_lt hoffset]
    have hsource := h.source
    omega
  rw [memcpyFrom_eq] at herror
  split at herror
  · exact absurd herror (by simp)
  · rw [hlen, if_neg (lt_irrefl _)] at herror
    exact absurd herror (by simp)

/-- A read outside of the file, for the first header that has one. -/
theorem loadSegments_overread (hroot : processRoot P k = .ok root) (hlen : 58 ≤ file.length)
    (h : loadSegments P fuel k file n s = .error .overread) :
    ∃ i < n, ∃ s₁, loadSegments P fuel k file i s = .ok s₁ ∧
      loadSegment P fuel root (activeRoot P k) file s₁ (headerPlace file i) = .error .overread := by
  induction n with
  | zero => exact absurd h (by simp [loadSegments, pure, Except.pure])
  | succ n ih =>
    rw [loadSegments, List.range_succ, List.foldlM_append] at h
    obtain hbefore | ⟨s₁, hbefore, hlast⟩ := Libc.bind_eq_error.mp h
    · obtain ⟨i, hi, hrun⟩ := ih hbefore
      exact ⟨i, Nat.lt_succ_of_lt hi, hrun⟩
    · refine ⟨n, Nat.lt_succ_self n, s₁, hbefore, ?_⟩
      rw [List.foldlM_cons, hroot] at hlast
      obtain hstep | ⟨s₂, -, hend⟩ := Libc.bind_eq_error.mp hlast
      · obtain hnull | ⟨root', hroot', hstep⟩ := Libc.bind_eq_error.mp hstep
        · exact absurd hnull (by simp)
        obtain rfl := Except.ok.inj hroot'
        obtain htable | ⟨tableOffset, htable, hstep⟩ := Libc.bind_eq_error.mp hstep
        · exact absurd htable (readAt_ne_error (by omega))
        obtain hentry | ⟨entrySize, hentry, hstep⟩ := Libc.bind_eq_error.mp hstep
        · exact absurd hentry (readAt_ne_error (by omega))
        obtain ⟨-, rfl⟩ := readAt_eq_ok.mp htable
        obtain ⟨-, rfl⟩ := readAt_eq_ok.mp hentry
        exact hstep
      · exact absurd hend (by simp [pure, Except.pure])

/-- **No read outside of the file** happens where all accesses stay where they belong. -/
theorem Contained.not_overread (h : Contained P k file) (hroot : processRoot P k = .ok root) (fuel : ℕ) :
    loadExecutable P fuel k file ≠ .error .overread := by
  intro herror
  have hfirst := (h _ .magic).resolve_left (by decide)
  obtain hmagic | ⟨magic, hmagic, herror⟩ := Libc.bind_eq_error.mp herror
  · exact readAt_ne_error hfirst hmagic
  obtain ⟨-, rfl⟩ := readAt_eq_ok.mp hmagic
  split_ifs at herror with hother
  have hseven : field file 0 1 = 0x7F := not_not.mp hother
  have hcount := (h _ (.number hseven)).resolve_left (by decide)
  obtain hnumber | ⟨number, hnumber, herror⟩ := Libc.bind_eq_error.mp herror
  · exact readAt_ne_error hcount hnumber
  obtain ⟨-, rfl⟩ := readAt_eq_ok.mp hnumber
  obtain hrun | ⟨mmu, hrun, herror⟩ := Libc.bind_eq_error.mp herror
  · obtain ⟨i, hi, s₁, hbefore, hstep⟩ := loadSegments_overread hroot (by omega) hrun
    exact loadSegment_not_overread (acceptable_of_contained h ⟨hseven, hi, fuel, s₁, hbefore⟩) hstep
  · obtain hentry | ⟨entry, -, hend⟩ := Libc.bind_eq_error.mp herror
    · have hstart := (h _ (.entry hseven ⟨fuel, mmu, hrun⟩)).resolve_left (by decide)
      exact readAt_ne_error hstart hentry
    · exact absurd hend (by simp)

/-! ## Files of any content -/

theorem count_of_unchanged (hroot : processRoot P k = .ok root)
    (h : loadSegments P fuel k file n s = .ok s') (hpos : s'.stackPosition ≤ s.stackPosition) : n = 0 := by
  obtain ⟨-, hlower, -⟩ := loadSegments_pool hroot h
  cases n with
  | zero => rfl
  | succ n =>
    rw [pagesBefore] at hlower
    omega

section Files

variable {read : ReadCall → Except Fault UInt8} {fs : FsState} {fo : ℕ}

/-- The function on the bytes of the file. -/
theorem kernelLoadElfExecutable_eq (hfo : fo ≠ 0)
    (hfile : fileBytes I read { fs with kernel := (malloc fs.kernel).2 } fo = .ok file) :
    kernelLoadElfExecutable P I read fuel fs fo =
      loadExecutable P fuel (malloc fs.kernel).2 file >>= fun r => .ok (r.1, { fs with kernel := r.2 }) := by
  rw [kernelLoadElfExecutable, if_neg hfo]
  change fileBytes I read { fs with kernel := (malloc fs.kernel).2 } fo >>= _ = _
  rw [hfile]
  rfl

/-- A file is refused for its first byte, or has no headers. -/
theorem Rejected.first_or_empty (hroot : processRoot P (malloc fs.kernel).2 = .ok root) (hfo : fo ≠ 0)
    (hfile : fileBytes I read { fs with kernel := (malloc fs.kernel).2 } fo = .ok file)
    (h : Rejected P I read fs fo) : (0 < file.length ∧ field file 0 1 ≠ 0x7F) ∨
      (58 ≤ file.length ∧ headerCount file = 0) := by
  obtain ⟨fuel, s', hrun, hsame⟩ := h
  rw [kernelLoadElfExecutable_eq hfo hfile] at hrun
  obtain ⟨⟨entry, k'⟩, hfunction, hresult⟩ := Libc.bind_eq_ok.mp hrun
  obtain ⟨rfl, rfl⟩ := Prod.mk.inj (Except.ok.inj hresult)
  have hmmu : k'.mmu = fs.kernel.mmu := by
    rcases hsame with hsame | hsame
    · rw [← hsame]
    · exact congrArg (fun s : FsState => s.kernel.mmu) hsame
  obtain ⟨magic, hmagic, hfunction⟩ := Libc.bind_eq_ok.mp hfunction
  obtain ⟨hlen, rfl⟩ := readAt_eq_ok.mp hmagic
  split_ifs at hfunction with hother
  · exact .inl ⟨by omega, hother⟩
  · -- no header was loaded, since that takes frames from the pool
    obtain ⟨number, hnumber, hfunction⟩ := Libc.bind_eq_ok.mp hfunction
    obtain ⟨hlen', rfl⟩ := readAt_eq_ok.mp hnumber
    obtain ⟨mmu, hsegments, hend⟩ := Libc.bind_eq_ok.mp hfunction
    obtain ⟨entry, -, hlast⟩ := Libc.bind_eq_ok.mp hend
    obtain ⟨-, rfl⟩ := Prod.mk.inj (Except.ok.inj hlast)
    exact .inr ⟨by omega, count_of_unchanged hroot hsegments (by rw [← hmmu])⟩

/-- **A file is refused or does no harm** exactly if there is none, or its first byte is another one, or
all headers that the loop comes to are acceptable. -/
theorem hostile_iff (hroot : processRoot P (malloc fs.kernel).2 = .ok root)
    (hfile : fo ≠ 0 → fileBytes I read { fs with kernel := (malloc fs.kernel).2 } fo = .ok file) :
    Rejected P I read fs fo ∨ Contained P (malloc fs.kernel).2 file ↔
      fo = 0 ∨ (0 < file.length ∧ field file 0 1 ≠ 0x7F) ∨
        (58 ≤ file.length ∧ ∀ i, Comes P (malloc fs.kernel).2 file i → Acceptable file i) := by
  rcases eq_or_ne fo 0 with hnull | hfo
  · refine iff_of_true (.inl ⟨0, fs, ?_, .inl rfl⟩) (.inl hnull)
    rw [kernelLoadElfExecutable, if_pos hnull]
  rw [or_iff_right hfo]
  constructor
  · rintro (hrejected | hinside)
    · apply (hrejected.first_or_empty hroot hfo (hfile hfo)).imp_right
      rintro ⟨hlen, hnone⟩
      refine ⟨hlen, fun i hi => ?_⟩
      have hheader := hi.header
      omega
    · have hfirst := (hinside _ .magic).resolve_left (by decide)
      by_cases hmagic : field file 0 1 = 0x7F
      · have hnumber := (hinside _ (.number hmagic)).resolve_left (by decide)
        exact .inr ⟨by omega, fun i hi => acceptable_of_contained hinside hi⟩
      · exact .inl ⟨by omega, hmagic⟩
  · rintro (⟨hlen, hmagic⟩ | ⟨hlen, hall⟩)
    · refine .inl ⟨0, _, ?_, .inr rfl⟩
      rw [kernelLoadElfExecutable_eq hfo (hfile hfo), loadExecutable, readAt, if_pos (by omega)]
      change (if field file 0 1 ≠ 0x7F then _ else _) >>= _ = _
      rw [if_pos hmagic]
      rfl
    · exact .inr (contained_of_acceptable hlen hall)

end Files

/-! ## Files to load -/

/-- The bytes that are read one after the other. -/
theorem fileBytes_eq {read : ReadCall → Except Fault UInt8} {fs : FsState} {fo : ℕ}
    (hsize : (fs.files fo).size = file.length)
    (hread : ∀ i < file.length, read (readByte I fs fo i) = .ok (file.getD i 0)) :
    fileBytes I read fs fo = .ok file := by
  have hall (is : List ℕ) (his : ∀ i ∈ is, i < file.length) :
      is.mapM (fun i : ℕ => read (readByte I fs fo i)) = .ok (is.map fun i => file.getD i 0) := by
    induction is with
    | nil => rfl
    | cons i is ih =>
      rw [List.mapM_cons, hread i (his i (List.mem_cons_self ..)),
        ih fun j hj => his j (List.mem_cons_of_mem i hj)]
      rfl
  rw [fileBytes, hsize, Int.toNat_natCast, hall _ fun i hi => List.mem_range.mp hi]
  apply congrArg Except.ok
  apply List.ext_getElem
  · simp
  · intro i _ hi
    simp [hi]

/-- A file of the file system in memory, over a buffer at `0x5000`, for a process. -/
def fileOf (file : List UInt8) : FsState where
  kernel := { loaderKernel with
    objects := fun _ => ⟨⟨List.Vector.replicate 64 0, 5⟩, 0x5000⟩
    mmu := bootState.withMem fun b => file.getD (b - 0x5000) 0 }
  files := fun _ => ⟨file.length, bootImage.ramfsFunctions⟩

theorem fileOf_bytes (hlen : file.length < 2 ^ 32) :
    fileBytes bootImage (ramfsReader bootImage (fileOf file))
      { fileOf file with kernel := (malloc (fileOf file).kernel).2 } 0x3000 = .ok file := by
  apply fileBytes_eq rfl
  intro i hi
  have hin : ¬ (file.length : ℤ) < i := by omega
  have hcell : cellAt 0x5000 i - 0x5000 = i := by
    unfold cellAt
    omega
  change (some (if (file.length : ℤ) < i then 0
    else file.getD (cellAt 0x5000 i - 0x5000) 0)).elim (Except.error Fault.call) Except.ok = _
  rw [if_neg hin, hcell]
  rfl

/-- A segment of the lower half. -/
theorem aligned_contained : Rejected bootPlatform bootImage (ramfsReader bootImage (fileOf alignedFile))
      (fileOf alignedFile) 0x3000 ∨
    Contained bootPlatform (malloc (fileOf alignedFile).kernel).2 alignedFile := by
  refine (hostile_iff rfl fun _ => fileOf_bytes (by decide)).mpr (.inr (.inr ⟨by decide, fun i hi => ?_⟩))
  have hcount : headerCount alignedFile = 1 := by decide
  have hheader := hi.header
  obtain rfl : i = 0 := by omega
  exact { readable := ⟨by decide, by decide, by decide⟩
          source := .inr (by decide)
          pages := by decide
          target := by decide }

/-- A segment in the upper half. -/
def kernelFile : List UInt8 := executable 0x400000 [⟨1, 0, 0xFFFFFFFF80100000, 0x10, 0x10⟩] []

theorem kernel_not_contained :
    fileBytes bootImage (ramfsReader bootImage (fileOf kernelFile))
        { fileOf kernelFile with kernel := (malloc (fileOf kernelFile).kernel).2 } 0x3000 = .ok kernelFile ∧
      ¬ (Rejected bootPlatform bootImage (ramfsReader bootImage (fileOf kernelFile)) (fileOf kernelFile)
          0x3000 ∨
        Contained bootPlatform (malloc (fileOf kernelFile).kernel).2 kernelFile) := by
  have hcount : headerCount kernelFile = 1 := by decide
  have hmagic : field kernelFile 0 1 = 0x7F := by decide
  have hfile : fileBytes bootImage (ramfsReader bootImage (fileOf kernelFile))
      { fileOf kernelFile with kernel := (malloc (fileOf kernelFile).kernel).2 } 0x3000 =
        .ok kernelFile := fileOf_bytes (by decide +kernel)
  refine ⟨hfile, ?_⟩
  rintro (hrejected | hinside)
  · rcases hrejected.first_or_empty rfl (by decide) hfile with ⟨-, hother⟩ | ⟨-, hnone⟩
    · exact hother hmagic
    · omega
  · have hcomes : Comes bootPlatform (malloc (fileOf kernelFile).kernel).2 kernelFile 0 :=
      ⟨hmagic, by omega, 0, _, rfl⟩
    have hpage : ((programHeader kernelFile 0).virtualAddress + 0x1000 * 0) % 2 ^ 64 < 2 ^ 47 :=
      hinside _ (.page hcomes (Nat.zero_le _))
    exact absurd hpage (by decide)

end Cutesugar.Kernel.Elf
