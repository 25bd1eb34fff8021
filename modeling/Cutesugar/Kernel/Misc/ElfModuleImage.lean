import Cutesugar.Kernel.Misc.ElfModules

/-!
# The image of a module in memory

Pages are counted from the base of a module, however far from it a segment lies, bytes of segments are
copied behind the base at their addresses, and then the bytes of functions once more, from the place in
the file that their address would be.

- `moduleWritten`, `symbolsWritten`: the bytes that both passes copy.
- `ValidModule`: the modules that are meant.
- `module_image_iff`: when the pages of all segments are mapped and hold their bytes.
-/

namespace Cutesugar.Kernel.Elf

open Lib Mmu

variable {P : Platform} {fuel root base n count : ℕ} {s s' s₀ : Mmu.State} {M M₀ : PageMap} {U : Set ℕ}
  {W : ℕ → Option UInt8} {file : List UInt8}

/-! ## Segments -/

/-- The bytes that the first headers copy. -/
def moduleWritten (base : ℕ) (file : List UInt8) : ℕ → ℕ → Option UInt8
  | 0 => fun _ => none
  | n + 1 => put (moduleWritten base file n) ((programHeader file n).virtualAddress + base)
    ((programHeader file n).contents file)

/-- The pages that are bound after the first headers. -/
def BoundModule (M : PageMap) (base : ℕ) (file : List UInt8) (n p : ℕ) : Prop :=
  (M p).isSome ∨ ∃ j < n, ∃ x < (programHeader file j).pagesBound / 0x1000 + 1, p = pageAt base x

theorem BoundModule.mono {p n' : ℕ} (hle : n ≤ n') (h : BoundModule M base file n p) :
    BoundModule M base file n' p := by
  rcases h with hsome | ⟨j, hj, hpage⟩
  · exact .inl hsome
  · exact .inr ⟨j, hj.trans_le hle, hpage⟩

theorem BoundModule.succ {p : ℕ} : BoundModule M base file (n + 1) p ↔ BoundModule M base file n p ∨
    ∃ x < (programHeader file n).pagesBound / 0x1000 + 1, p = pageAt base x := by
  constructor
  · rintro (hsome | ⟨j, hj, hpage⟩)
    · exact .inl (.inl hsome)
    · rcases Nat.lt_succ_iff_lt_or_eq.mp hj with hlt | rfl
      · exact .inl (.inr ⟨j, hlt, hpage⟩)
      · exact .inr hpage
  · rintro (hbefore | hpage)
    · exact hbefore.mono (Nat.le_succ n)
    · exact .inr ⟨n, Nat.lt_succ_self n, hpage⟩

/-- **The state after the headers of a module.** -/
theorem moduleSegments_loaded (h : Owned P root count s M U) (hroot : root ≠ 0)
    (hinside : ∀ j < n, ∀ w, Region ((programHeader file j).virtualAddress + base)
      (programHeader file j).fileSize w → Canonical w → w / 4096 ∈ U)
    (hrun : loadModuleSegments P fuel root base file n s = .ok s') (hroom : s'.stackPosition ≤ count) :
    ∃ M', Loaded P root count U s M s' M' (moduleWritten base file n) ∧
      (∀ p, (M' p).isSome ↔ BoundModule M base file n p) ∧
      ∀ j < n, ((programHeader file j).contents file).length = (programHeader file j).fileSize ∧
        ∀ w, Region ((programHeader file j).virtualAddress + base) (programHeader file j).fileSize w →
          Canonical w ∧ BoundModule M base file n (w / 4096) := by
  induction n generalizing s' with
  | zero =>
    obtain rfl := Except.ok.inj hrun
    refine ⟨M, Loaded.start h, fun p => ?_, fun j hj => absurd hj (Nat.not_lt_zero j)⟩
    simp [BoundModule]
  | succ n ih =>
    obtain ⟨s₁, hbefore, -, -, s₂, hmap, hcopy⟩ := loadModuleSegments_succ.mp hrun
    obtain ⟨-, rfl⟩ := mapPages_eq_ok.mp ⟨fuel, hmap⟩
    rw [(memcpyFrom_pool hcopy).2] at hroom
    have hpos : s₁.stackPosition + ((programHeader file n).pagesBound / 0x1000 + 1) ≤
        (mapMany P root base ((programHeader file n).pagesBound / 0x1000 + 1) s₁).stackPosition :=
      mapMany_stackPosition _
    obtain ⟨M₁, hloaded₁, hbound₁, hcopied₁⟩ :=
      ih (fun j hj => hinside j (Nat.lt_succ_of_lt hj)) hbefore (by omega)
    obtain ⟨M₂, hloaded₂, hbound₂⟩ := loaded_mapMany hloaded₁ hroot _ hroom
    obtain ⟨hcopied, hlen, -, hloaded⟩ := loaded_memcpyFrom hloaded₂
      (fun w hw => hinside n (Nat.lt_succ_self n) w hw) hcopy
    have hbound : ∀ p, (M₂ p).isSome ↔ BoundModule M base file (n + 1) p := by
      intro p
      rw [hbound₂, hbound₁, BoundModule.succ]
    refine ⟨M₂, hloaded, hbound, fun j hj => ?_⟩
    rcases Nat.lt_succ_iff_lt_or_eq.mp hj with hlt | rfl
    · obtain ⟨hlen₁, hregion⟩ := hcopied₁ j hlt
      exact ⟨hlen₁, fun w hw => ⟨(hregion w hw).1, (hregion w hw).2.mono (Nat.le_succ n)⟩⟩
    · refine ⟨hlen, fun w hw => ?_⟩
      obtain ⟨hcanonical, hsome⟩ := hcopied w hw
      exact ⟨hcanonical, (hbound _).mp hsome⟩

/-! ## Symbols -/

/-- `struct ELFSym`, the fields of functions. -/
structure ElfSym where
  info : ℕ
  value : ℕ
  size : ℕ
  deriving DecidableEq

def symbolAt (file : List UInt8) (place : ℕ) : ElfSym :=
  ⟨field file ((place + 4) % 2 ^ 64) 1, field file ((place + 8) % 2 ^ 64) 8,
    field file ((place + 16) % 2 ^ 64) 8⟩

/-- A symbol that the pass copies the bytes of. -/
def ElfSym.IsFunction (f : ElfSym) : Prop := f.info &&& 0xF = 2 ∧ f.value ≠ 0

instance (f : ElfSym) : Decidable f.IsFunction := inferInstanceAs (Decidable (_ ∧ _))

/-- The places of the symbols of a section. -/
def sectionSymbols (file : List UInt8) (i : ℕ) : List ℕ :=
  let place := sectionAt (field file 40 8) i
  if field file ((place + 4) % 2 ^ 64) 4 = 2 then
    (List.range (field file ((place + 32) % 2 ^ 64) 8 / field file ((place + 56) % 2 ^ 64) 8)).map
      fun j => field file ((place + 24) % 2 ^ 64) 8 + 24 * j
  else []

/-- The places of the symbols of a file. -/
def symbolPlaces (file : List UInt8) : List ℕ := (List.range (field file 60 2)).flatMap (sectionSymbols file)

/-- The bytes of functions, over what was copied before. -/
def symbolsWritten (base : ℕ) (file : List UInt8) (W : ℕ → Option UInt8) (places : List ℕ) :
    ℕ → Option UInt8 :=
  places.foldl (fun W place =>
    let f := symbolAt file place
    if f.IsFunction then put W (base + f.value) (slice file f.value f.size) else W) W

/-- What copying a function asks for. -/
def ElfSym.Copies (f : ElfSym) (base : ℕ) (file : List UInt8) (M : PageMap) : Prop :=
  (slice file f.value f.size).length = f.size ∧
    ∀ w, Region (base + f.value) f.size w → Canonical w ∧ (M (w / 4096)).isSome

/-- The functions of some places are copied to pages of the set. -/
def FunctionsInside (base : ℕ) (file : List UInt8) (U : Set ℕ) (places : List ℕ) : Prop :=
  ∀ place ∈ places, (symbolAt file place).IsFunction →
    ∀ w, Region (base + (symbolAt file place).value) (symbolAt file place).size w → Canonical w →
      w / 4096 ∈ U

/-- **The state after some symbols.** -/
theorem symbols_loaded {strings : ℕ} {t t' : Mmu.State × List FunctionSymbol} {places : List ℕ}
    (h : Loaded P root count U s₀ M₀ t.1 M W) (hinside : FunctionsInside base file U places)
    (hrun : places.foldlM (loadSymbol P root base file strings) t = .ok t') :
    Loaded P root count U s₀ M₀ t'.1 M (symbolsWritten base file W places) ∧
      ∀ place ∈ places, (symbolAt file place).IsFunction → (symbolAt file place).Copies base file M := by
  induction places generalizing t W with
  | nil =>
    obtain rfl := Except.ok.inj hrun
    exact ⟨h, fun place hplace => absurd hplace (by simp)⟩
  | cons place places ih =>
    rw [List.foldlM_cons] at hrun
    obtain ⟨t₁, hfirst, hrest⟩ := Libc.bind_eq_ok.mp hrun
    have hafter : FunctionsInside base file U places :=
      fun place' hplace' => hinside place' (List.mem_cons_of_mem _ hplace')
    obtain ⟨info, hinfo, hfirst⟩ := Libc.bind_eq_ok.mp hfirst
    obtain ⟨value, hvalue, hfirst⟩ := Libc.bind_eq_ok.mp hfirst
    obtain ⟨-, rfl⟩ := readAt_eq_ok.mp hinfo
    obtain ⟨-, rfl⟩ := readAt_eq_ok.mp hvalue
    -- only the bytes of functions are copied, once more over those of the segments
    by_cases hfunction : (symbolAt file place).IsFunction
    · have hfields : field file ((place + 4) % 2 ^ 64) 1 &&& 0xF = 2 ∧
          field file ((place + 8) % 2 ^ 64) 8 ≠ 0 := hfunction
      rw [if_pos hfields] at hfirst
      obtain ⟨size, hsize, hfirst⟩ := Libc.bind_eq_ok.mp hfirst
      obtain ⟨mmu, hcopy, hfirst⟩ := Libc.bind_eq_ok.mp hfirst
      obtain ⟨nameOffset, -, hfirst⟩ := Libc.bind_eq_ok.mp hfirst
      obtain ⟨name, -, hfirst⟩ := Libc.bind_eq_ok.mp hfirst
      obtain ⟨symbols, -, hlast⟩ := Libc.bind_eq_ok.mp hfirst
      obtain rfl := Except.ok.inj hlast
      obtain ⟨-, rfl⟩ := readAt_eq_ok.mp hsize
      obtain ⟨hregion, hlen, -, hloaded⟩ := loaded_memcpyFrom h
        (hinside place (List.mem_cons_self ..) hfunction) hcopy
      obtain ⟨hfinal, hcopies⟩ := ih hloaded hafter hrest
      rw [symbolsWritten, List.foldl_cons, if_pos hfunction]
      refine ⟨hfinal, fun place' hplace' hfunction' => ?_⟩
      rcases List.mem_cons.mp hplace' with rfl | hmem
      · exact ⟨hlen, hregion⟩
      · exact hcopies place' hmem hfunction'
    · have hfields : ¬ (field file ((place + 4) % 2 ^ 64) 1 &&& 0xF = 2 ∧
          field file ((place + 8) % 2 ^ 64) 8 ≠ 0) := hfunction
      rw [if_neg hfields] at hfirst
      obtain rfl := Except.ok.inj hfirst
      obtain ⟨hfinal, hcopies⟩ := ih h hafter hrest
      rw [symbolsWritten, List.foldl_cons, if_neg hfunction]
      refine ⟨hfinal, fun place' hplace' hfunction' => ?_⟩
      rcases List.mem_cons.mp hplace' with rfl | hmem
      · exact absurd hfunction' hfunction
      · exact hcopies place' hmem hfunction'

/-- A section is a loop over its symbols. -/
theorem loadSection_eq_ok {t t' : Mmu.State × List FunctionSymbol} {i : ℕ}
    (h : loadSection P root base file (field file 40 8) t i = .ok t') :
    ∃ strings, (sectionSymbols file i).foldlM (loadSymbol P root base file strings) t = .ok t' := by
  obtain ⟨type, htype, h⟩ := Libc.bind_eq_ok.mp h
  obtain ⟨-, rfl⟩ := readAt_eq_ok.mp htype
  unfold sectionSymbols
  dsimp only
  split_ifs at h ⊢ with hsymbols
  · obtain ⟨table, htable, h⟩ := Libc.bind_eq_ok.mp h
    obtain ⟨stringIndex, -, h⟩ := Libc.bind_eq_ok.mp h
    obtain ⟨strings, -, h⟩ := Libc.bind_eq_ok.mp h
    obtain ⟨size, hsize, h⟩ := Libc.bind_eq_ok.mp h
    obtain ⟨entrySize, hentry, h⟩ := Libc.bind_eq_ok.mp h
    obtain ⟨number, hnumber, hloop⟩ := Libc.bind_eq_ok.mp h
    obtain ⟨-, rfl⟩ := readAt_eq_ok.mp htable
    obtain ⟨-, rfl⟩ := readAt_eq_ok.mp hsize
    obtain ⟨-, rfl⟩ := readAt_eq_ok.mp hentry
    unfold divide at hnumber
    split_ifs at hnumber
    obtain rfl := Except.ok.inj hnumber
    refine ⟨strings, ?_⟩
    rw [List.foldlM_map]
    exact hloop
  · exact ⟨0, h⟩

theorem symbolsWritten_append (places places' : List ℕ) :
    symbolsWritten base file W (places ++ places') =
      symbolsWritten base file (symbolsWritten base file W places) places' :=
  List.foldl_append

/-- **The state after some sections.** -/
theorem sections_loaded {t t' : Mmu.State × List FunctionSymbol} {is : List ℕ}
    (h : Loaded P root count U s₀ M₀ t.1 M W)
    (hinside : FunctionsInside base file U (is.flatMap (sectionSymbols file)))
    (hrun : is.foldlM (loadSection P root base file (field file 40 8)) t = .ok t') :
    Loaded P root count U s₀ M₀ t'.1 M
        (symbolsWritten base file W (is.flatMap (sectionSymbols file))) ∧
      ∀ place ∈ is.flatMap (sectionSymbols file), (symbolAt file place).IsFunction →
        (symbolAt file place).Copies base file M := by
  induction is generalizing t W with
  | nil =>
    obtain rfl := Except.ok.inj hrun
    exact ⟨h, fun place hplace => absurd hplace (by simp)⟩
  | cons i is ih =>
    rw [List.foldlM_cons] at hrun
    obtain ⟨t₁, hfirst, hrest⟩ := Libc.bind_eq_ok.mp hrun
    obtain ⟨strings, hfirst⟩ := loadSection_eq_ok hfirst
    rw [List.flatMap_cons] at hinside ⊢
    obtain ⟨hloaded, hcopies₁⟩ := symbols_loaded h
      (fun place hplace => hinside place (List.mem_append_left _ hplace)) hfirst
    obtain ⟨hfinal, hcopies⟩ := ih hloaded
      (fun place hplace => hinside place (List.mem_append_right _ hplace)) hrest
    rw [symbolsWritten_append]
    refine ⟨hfinal, fun place hplace => ?_⟩
    rcases List.mem_append.mp hplace with hmem | hmem
    · exact hcopies₁ place hmem
    · exact hcopies place hmem

/-! ## The bytes of both passes -/

/-- The last address of modules: the kernel is behind it. -/
def moduleEnd : ℕ := 0xffffffff80000000

/-- The pages of modules. -/
def moduleRange : Set ℕ := {p | 0xffffc00000000000 ≤ 4096 * p ∧ 4096 * p < moduleEnd}

/-- A segment has its byte of an address in the file. -/
def ProgramHeader.Holds (h : ProgramHeader) (a : ℕ) : Prop :=
  h.virtualAddress ≤ a ∧ a < h.virtualAddress + h.fileSize

/-- The place of that byte. -/
def ProgramHeader.placeOf (h : ProgramHeader) (a : ℕ) : ℕ := h.fileOffset + (a - h.virtualAddress)

/-- A function covers an address. -/
def ElfSym.Covers (f : ElfSym) (a : ℕ) : Prop := f.value ≤ a ∧ a < f.value + f.size

/-- An address that is copied in the pass over the symbols. -/
def CoveredByFunction (file : List UInt8) (a : ℕ) : Prop :=
  ∃ place ∈ symbolPlaces file, (symbolAt file place).IsFunction ∧ (symbolAt file place).Covers a

/-- All of the module lies behind its base and in front of the kernel, loadable segments do not overlap
and have no more bytes in the file than in memory, and where other headers give bytes for an address of
a loadable segment, they are the same bytes of the file. -/
structure ValidModule (base : ℕ) (file : List UInt8) : Prop where
  start : 0xffffc00000000000 ≤ base
  segments : ∀ i < headerCount file,
    base + (programHeader file i).virtualAddress + (programHeader file i).fileSize ≤ moduleEnd ∧
      base + (programHeader file i).virtualAddress + (programHeader file i).memorySize ≤ moduleEnd ∧
      base + ((programHeader file i).memorySize / 0x1000 + 2) * 0x1000 < moduleEnd
  functions : ∀ place ∈ symbolPlaces file, (symbolAt file place).IsFunction →
    base + (symbolAt file place).value + (symbolAt file place).size ≤ moduleEnd
  size : ∀ i < headerCount file, (programHeader file i).Loadable →
    (programHeader file i).fileSize ≤ (programHeader file i).memorySize
  apart : ∀ i < headerCount file, ∀ j < headerCount file, (programHeader file i).Loadable →
    (programHeader file j).Loadable → i ≠ j →
      ∀ a, (programHeader file i).Occupied a → ¬ (programHeader file j).Occupied a
  agree : ∀ i < headerCount file, ∀ j < headerCount file, (programHeader file i).Loadable →
    ¬ (programHeader file j).Loadable → ∀ a, (programHeader file i).Holds a →
      (programHeader file j).Holds a → (programHeader file j).placeOf a = (programHeader file i).placeOf a

/-- The bytes of segments that other headers have too. -/
theorem ValidModule.placeOf_eq (h : ValidModule base file) {i j a : ℕ} (hi : i < headerCount file)
    (hj : j < headerCount file) (hload : (programHeader file i).Loadable)
    (hai : (programHeader file i).Holds a) (haj : (programHeader file j).Holds a) :
    (programHeader file j).placeOf a = (programHeader file i).placeOf a := by
  by_cases hload' : (programHeader file j).Loadable
  · rcases eq_or_ne i j with rfl | hne
    · rfl
    · -- loadable segments do not overlap
      have hsize := h.size i hi hload
      have hsize' := h.size j hj hload'
      exact absurd ⟨haj.1, by have := haj.2; omega⟩
        (h.apart i hi j hj hload hload' hne a ⟨hai.1, by have := hai.2; omega⟩)
  · exact h.agree i hi j hj hload hload' a hai haj

theorem getElem?_slice {place size k : ℕ} (hplace : place < 2 ^ 64) (hk : k < size) :
    (slice file place size)[k]? = file[place + k]? := by
  rw [slice, List.getElem?_take_of_lt hk, List.getElem?_drop, Nat.mod_eq_of_lt hplace]

theorem exists_byte {place size k : ℕ} (hplace : place < 2 ^ 64)
    (hlen : (slice file place size).length = size) (hk : k < size) : ∃ b, file[place + k]? = some b := by
  rw [← getElem?_slice hplace hk]
  exact ⟨_, List.getElem?_eq_getElem (by omega)⟩

/-- What the bytes of a header are over what was copied before. -/
theorem put_contents {v : ℕ} {h : ProgramHeader} {a : ℕ} (hlen : (h.contents file).length = h.fileSize)
    (hsize : h.fileSize < 2 ^ 64) (hoffset : h.fileOffset < 2 ^ 64) (hend : base + a < 2 ^ 64)
    (hv : v = h.virtualAddress + base) (ha : h.Holds a) :
    put W v (h.contents file) (base + a) = file[h.placeOf a]? := by
  obtain ⟨hlow, hhigh⟩ := ha
  have hk : a - h.virtualAddress < (h.contents file).length := by omega
  have hbyte := put_of_lt (W := W) (v := v) (hlen.trans_lt hsize).le hk
  have haddress : (v + (a - h.virtualAddress)) % 2 ^ 64 = base + a := by omega
  rw [haddress] at hbyte
  rw [hbyte, ← List.getElem?_eq_getElem, ProgramHeader.contents, getElem?_slice hoffset (by omega)]
  rfl

/-- **The byte of a loadable segment** after the headers. -/
theorem moduleWritten_eq (h : ValidModule base file) {i a : ℕ} (hi : i < headerCount file)
    (hload : (programHeader file i).Loadable) (hai : (programHeader file i).Holds a) (hn : n ≤ headerCount file)
    (hlen : ∀ j < n, ((programHeader file j).contents file).length = (programHeader file j).fileSize)
    (hin : i < n) : moduleWritten base file n (base + a) = file[(programHeader file i).placeOf a]? := by
  induction n with
  | zero => exact absurd hin (Nat.not_lt_zero i)
  | succ n ih =>
    have hend := (h.segments i hi).1
    have hrange := (h.segments n hn).1
    have hlast := hlen n (Nat.lt_succ_self n)
    unfold moduleEnd at hend hrange
    have ha := hai
    obtain ⟨hlow, hhigh⟩ := ha
    rw [moduleWritten]
    by_cases han : (programHeader file n).Holds a
    · rw [put_contents hlast (field64_lt ..) (field64_lt ..) (by omega) rfl han,
        h.placeOf_eq hi hn hload hai han]
    · have hout : ¬ Region ((programHeader file n).virtualAddress + base)
          ((programHeader file n).contents file).length (base + a) := by
        rw [hlast]
        rintro ⟨k, hk, heq⟩
        exact han ⟨by omega, by omega⟩
      have hne : i ≠ n := by
        rintro rfl
        exact han hai
      rw [put_of_not_region hout]
      exact ih (by omega) (fun j hj => hlen j (Nat.lt_succ_of_lt hj)) (by omega)

/-- **The byte of an address** after the pass over the symbols. -/
theorem symbolsWritten_eq (h : ValidModule base file) {a : ℕ} (ha : base + a < 2 ^ 64) {places : List ℕ}
    (hsub : ∀ place ∈ places, place ∈ symbolPlaces file)
    (hlen : ∀ place ∈ places, (symbolAt file place).IsFunction →
      (slice file (symbolAt file place).value (symbolAt file place).size).length =
        (symbolAt file place).size) :
    ((∃ place ∈ places, (symbolAt file place).IsFunction ∧ (symbolAt file place).Covers a) →
        symbolsWritten base file W places (base + a) = file[a]?) ∧
      ((¬ ∃ place ∈ places, (symbolAt file place).IsFunction ∧ (symbolAt file place).Covers a) →
        symbolsWritten base file W places (base + a) = W (base + a)) := by
  induction places generalizing W with
  | nil => exact ⟨fun hex => absurd hex (by simp), fun _ => rfl⟩
  | cons place places ih =>
    obtain ⟨hcovered, hother⟩ := ih (fun p hp => hsub p (List.mem_cons_of_mem _ hp))
      (fun p hp => hlen p (List.mem_cons_of_mem _ hp)) (W :=
        if (symbolAt file place).IsFunction then put W (base + (symbolAt file place).value)
          (slice file (symbolAt file place).value (symbolAt file place).size) else W)
    have hstep : symbolsWritten base file W (place :: places) = symbolsWritten base file
        (if (symbolAt file place).IsFunction then put W (base + (symbolAt file place).value)
          (slice file (symbolAt file place).value (symbolAt file place).size) else W) places := rfl
    rw [hstep]
    by_cases hrest : ∃ p ∈ places, (symbolAt file p).IsFunction ∧ (symbolAt file p).Covers a
    · obtain ⟨p, hp, hcovers⟩ := hrest
      exact ⟨fun _ => hcovered ⟨p, hp, hcovers⟩,
        fun hnone => absurd ⟨p, List.mem_cons_of_mem _ hp, hcovers⟩ hnone⟩
    · rw [hother hrest]
      -- no later function covers the address, so it is up to this one
      by_cases hfunction : (symbolAt file place).IsFunction
      · rw [if_pos hfunction]
        have hsize := hlen place (List.mem_cons_self ..) hfunction
        have hrange := h.functions place (hsub place (List.mem_cons_self ..)) hfunction
        unfold moduleEnd at hrange
        have hvalue : (symbolAt file place).value < 2 ^ 64 := field64_lt ..
        constructor
        · rintro ⟨p, hp, hfun, hcovers⟩
          rcases List.mem_cons.mp hp with rfl | hmem
          · obtain ⟨hlow, hhigh⟩ := hcovers
            have hk : a - (symbolAt file p).value <
                (slice file (symbolAt file p).value (symbolAt file p).size).length := by omega
            have hbyte := put_of_lt (W := W) (v := base + (symbolAt file p).value) (by omega) hk
            have haddress : (base + (symbolAt file p).value + (a - (symbolAt file p).value)) % 2 ^ 64 =
                base + a := by omega
            have hplace : (symbolAt file p).value + (a - (symbolAt file p).value) = a := by omega
            rw [haddress] at hbyte
            rw [hbyte, ← List.getElem?_eq_getElem, getElem?_slice hvalue (by omega), hplace]
          · exact absurd ⟨p, hmem, hfun, hcovers⟩ hrest
        · intro hnone
          apply put_of_not_region
          rw [hsize]
          rintro ⟨k, hk, heq⟩
          exact hnone ⟨place, List.mem_cons_self .., hfunction, by omega, by omega⟩
      · rw [if_neg hfunction]
        refine ⟨?_, fun _ => rfl⟩
        rintro ⟨p, hp, hfun, hcovers⟩
        rcases List.mem_cons.mp hp with rfl | hmem
        · exact absurd hfun hfunction
        · exact absurd ⟨p, hmem, hfun, hcovers⟩ hrest

/-! ## The image of a module -/

/-- The pages of loadable segments are mapped. -/
def SegmentsMapped (P : Platform) (root base : ℕ) (file : List UInt8) (m : Memory) : Prop :=
  ∀ i < headerCount file, (programHeader file i).Loadable →
    ∀ a, (programHeader file i).Occupied a → (physical P m root (base + a)).isSome

/-- Loadable segments hold their bytes of the file. -/
def SegmentsHeld (P : Platform) (root base : ℕ) (file : List UInt8) (m : Memory) : Prop :=
  ∀ i < headerCount file, (programHeader file i).Loadable →
    ∀ a, (programHeader file i).Holds a →
      byteAt P m root (base + a) = file[(programHeader file i).placeOf a]?

/-- No segment reaches further from the base than the longest one has pages and two, unless its pages
were bound. -/
def PagesMet (M : PageMap) (base : ℕ) (file : List UInt8) : Prop :=
  ∀ i < headerCount file, (programHeader file i).Loadable →
    ∀ a, (programHeader file i).Occupied a → (M ((base + a) / 4096)).isSome ∨
      ∃ j < headerCount file, a / 0x1000 ≤ (programHeader file j).memorySize / 0x1000 + 2

/-- A byte of a function is the same byte of the file at the place that is its address. -/
def FunctionsMet (file : List UInt8) : Prop :=
  ∀ i < headerCount file, (programHeader file i).Loadable →
    ∀ a, (programHeader file i).Holds a → CoveredByFunction file a →
      file[a]? = file[(programHeader file i).placeOf a]?

/-- The pages of a header are counted from the base. -/
theorem ValidModule.boundModule_iff (h : ValidModule base file) (haligned : base % 0x1000 = 0) {a : ℕ} :
    BoundModule M base file (headerCount file) ((base + a) / 4096) ↔
      (M ((base + a) / 4096)).isSome ∨
        ∃ j < headerCount file, a / 0x1000 ≤ (programHeader file j).memorySize / 0x1000 + 2 := by
  have hstart := h.start
  refine or_congr_right (exists_congr fun j => and_congr_right fun hj => ?_)
  have hend := (h.segments j hj).2.2
  unfold moduleEnd at hend
  have hbound : (programHeader file j).pagesBound / 0x1000 + 1 =
      (programHeader file j).memorySize / 0x1000 + 2 + 1 := by
    unfold ProgramHeader.pagesBound
    omega
  rw [hbound]
  have hpage : ∀ x ≤ (programHeader file j).memorySize / 0x1000 + 2, pageAt base x = base / 4096 + x := by
    intro x hx
    have hcanonical : Canonical ((base + 0x1000 * x) % 2 ^ 64) := .inr ⟨by omega, by omega⟩
    rw [pageAt, canon_of_canonical hcanonical]
    omega
  constructor
  · rintro ⟨x, hx, heq⟩
    rw [hpage x (by omega)] at heq
    omega
  · intro hle
    refine ⟨a / 0x1000, by omega, ?_⟩
    rw [hpage _ hle]
    omega

/-- **The image of a module**: the pages of its segments are mapped and hold their bytes exactly if no
segment reaches too far from the base and functions have their bytes where the second pass looks for
them. -/
theorem module_image_iff {t t' : ElfState} (hvalid : ValidModule base file)
    (h : Owned P root count t.kernel.mmu M moduleRange) (hactive : activeRoot P t.kernel = root)
    (hroot : root ≠ 0) (hmagic : field file 0 1 = 0x7F)
    (hrun : kernelLoadElfLibrary P fuel t file = .ok (base, t'))
    (hroom : t'.kernel.mmu.stackPosition ≤ count) :
    SegmentsMapped P root base file t'.kernel.mmu.mem ∧ SegmentsHeld P root base file t'.kernel.mmu.mem ↔
      PagesMet M base file ∧ FunctionsMet file := by
  have hstart := hvalid.start
  obtain ⟨hother, -⟩ | ⟨-, hbase, mmu, symbols, hsegments, hpass⟩ := kernelLoadElfLibrary_eq_ok hrun
  · exact absurd hmagic hother
  rw [hactive] at hsegments hpass
  -- both passes keep the pool, so the base is the number of one of its frames
  obtain ⟨-, hpos⟩ := foldlM_samePool (fun _ _ _ => loadSection_pool) hpass
  obtain ⟨-, hle, -⟩ := loadModuleSegments_pool hsegments
  dsimp only at hpos
  have htaken : t.kernel.mmu.stackPosition + 1 ≤ mmu.stackPosition := hle
  have haligned : base % 0x1000 = 0 := by
    have hframe := h.refines.forest.pool.aligned _ le_rfl (by omega)
    rw [hbase, baseOf]
    omega
  obtain ⟨M', hloaded, hbound, hcopied⟩ := moduleSegments_loaded h.allocate hroot
    (fun j hj w hw _ => by
      obtain ⟨k, hk, rfl⟩ := hw
      have hend := (hvalid.segments j hj).1
      unfold moduleEnd at hend
      exact ⟨by omega, by unfold moduleEnd; omega⟩) hsegments (by omega)
  obtain ⟨hfinal, hfunctions⟩ := sections_loaded (t := (mmu, t.symbols)) hloaded
    (fun place hplace hfunction w hw _ => by
      obtain ⟨k, hk, rfl⟩ := hw
      have hend := hvalid.functions place hplace hfunction
      unfold moduleEnd at hend
      exact ⟨by omega, by unfold moduleEnd; omega⟩) hpass
  -- the addresses behind the base
  have haddress {a : ℕ} (ha : base + a < moduleEnd) :
      Canonical (base + a) ∧ (base + a) / 4096 ∈ moduleRange := by
    unfold moduleEnd at ha
    exact ⟨.inr ⟨by omega, by omega⟩, by omega, by unfold moduleEnd; omega⟩
  refine and_congr ?_ ?_
  · refine forall_congr' fun i => forall_congr' fun hi => forall_congr' fun hload => forall_congr' fun a =>
      forall_congr' fun ha => ?_
    have hend := (hvalid.segments i hi).2.1
    have hin := (haddress (by have := ha.2; omega) : Canonical (base + a) ∧ _).1
    rw [isSome_physical hfinal.owned.refines, and_iff_right hin, hbound,
      hvalid.boundModule_iff haligned]
  · refine forall_congr' fun i => forall_congr' fun hi => forall_congr' fun hload => forall_congr' fun a =>
      forall_congr' fun ha => ?_
    have hend := (hvalid.segments i hi).1
    have ha' := ha
    obtain ⟨hlow, hhigh⟩ := ha'
    obtain ⟨hcanonical, hin⟩ := haddress (by omega : base + a < moduleEnd)
    have hlt : base + a < 2 ^ 64 := by
      unfold moduleEnd at hend
      omega
    obtain ⟨hlen, hregion⟩ := hcopied i hi
    have hbytes : ∀ j < headerCount file,
        ((programHeader file j).contents file).length = (programHeader file j).fileSize :=
      fun j hj => (hcopied j hj).1
    have hbefore := (hregion (base + a) ⟨a - (programHeader file i).virtualAddress, by omega, by omega⟩).2
    obtain ⟨f, hf⟩ := Option.isSome_iff_exists.mp ((hbound _).mpr hbefore)
    have hwritten := moduleWritten_eq hvalid hi hload ha le_rfl hbytes hi
    -- the byte is the last one copied
    have hbyte {b : UInt8} (hb : symbolsWritten base file (moduleWritten base file (headerCount file))
        (symbolPlaces file) (base + a) = some b) :
        byteAt P t'.kernel.mmu.mem root (base + a) = some b := by
      rw [hfinal.byteAt_eq hcanonical hin, hf, Option.map_some]
      exact congrArg (fun o : Option UInt8 => some (o.getD _)) hb
    obtain ⟨hcovered, hother⟩ := symbolsWritten_eq (W := moduleWritten base file (headerCount file)) hvalid hlt
      (fun place hplace => hplace) fun place hplace hfunction => (hfunctions place hplace hfunction).1
    by_cases hfun : CoveredByFunction file a
    · have hsame := hcovered hfun
      obtain ⟨place, hplace, hfunction, hlow', hhigh'⟩ := hfun
      have hvalue : (symbolAt file place).value < 2 ^ 64 := field64_lt ..
      obtain ⟨b, hb⟩ := exists_byte hvalue (hfunctions place hplace hfunction).1
        (by omega : a - (symbolAt file place).value < (symbolAt file place).size)
      rw [Nat.add_sub_cancel' hlow'] at hb
      rw [hbyte (hsame.trans hb), ← hb]
      exact ⟨fun heq _ => heq, fun hcond => hcond ⟨place, hplace, hfunction, hlow', hhigh'⟩⟩
    · obtain ⟨b, hb⟩ := exists_byte (field64_lt ..) hlen
        (by omega : a - (programHeader file i).virtualAddress < (programHeader file i).fileSize)
      have hplace : file[(programHeader file i).placeOf a]? = some b := hb
      rw [hbyte (((hother hfun).trans hwritten).trans hplace), hplace]
      exact iff_of_true rfl fun hcov => absurd hcov hfun

/-- The base that the first frame of the pool gives. -/
def moduleBase : ℕ := 0xffffc00000100000

theorem loaderKernel_module :
    Owned bootPlatform loaderRoot 16 loaderKernel.mmu (fun _ => none) moduleRange :=
  loaderKernel_owned moduleRange fun p hp => by
    obtain ⟨hlow, hhigh⟩ := hp
    unfold moduleEnd at hhigh
    exact .inr ⟨by omega, by omega⟩

/-- A module with one header and no sections. -/
theorem validModule_one (hcount : headerCount file = 1) (hsections : field file 60 2 = 0)
    (hsize : (programHeader file 0).fileSize ≤ (programHeader file 0).memorySize)
    (hend : moduleBase + (programHeader file 0).virtualAddress + (programHeader file 0).memorySize + 0x3000 <
      moduleEnd) : ValidModule moduleBase file where
  start := by decide
  segments i hi := by
    obtain rfl : i = 0 := by omega
    exact ⟨by omega, by omega, by omega⟩
  functions place hplace := by
    rw [symbolPlaces, hsections] at hplace
    exact absurd hplace (by simp)
  size i hi _ := by
    obtain rfl : i = 0 := by omega
    exact hsize
  apart i hi j hj _ _ hne := absurd ((by omega : i = 0).trans (by omega : j = 0).symm) hne
  agree i hi j hj hload hload' := by
    obtain rfl : i = 0 := by omega
    obtain rfl : j = 0 := by omega
    exact absurd hload hload'

/-- `struct ELFSectionHeader`. -/
structure SectionHeader where
  type : ℕ
  offset : ℕ
  size : ℕ
  link : ℕ
  info : ℕ
  entrySize : ℕ

def SectionHeader.bytes (s : SectionHeader) : List UInt8 :=
  bytesOf 4 0 ++ bytesOf 4 s.type ++ bytesOf 8 0 ++ bytesOf 8 0 ++ bytesOf 8 s.offset ++
    bytesOf 8 s.size ++ bytesOf 4 s.link ++ bytesOf 4 s.info ++ bytesOf 8 0 ++ bytesOf 8 s.entrySize

def ElfSym.bytes (f : ElfSym) (name : ℕ) : List UInt8 :=
  bytesOf 4 name ++ bytesOf 1 f.info ++ bytesOf 3 0 ++ bytesOf 8 f.value ++ bytesOf 8 f.size

/-- A file with some section headers at its end, the last one for the names of sections. -/
def libraryFile (headers : List ProgramHeader) (contents : List UInt8) (sections : List SectionHeader) :
    List UInt8 :=
  let file := executable 0 headers contents
  file.take 40 ++ bytesOf 8 file.length ++ (file.take 60).drop 48 ++ bytesOf 2 sections.length ++
    bytesOf 2 (sections.length - 1) ++ file.drop 64 ++ sections.flatMap SectionHeader.bytes

/-- A function `f` in a first segment, and a second one that lies a page behind its place in the file and
has a tail. -/
def functionFile : List UInt8 :=
  libraryFile [⟨1, 0xD0, 0xD0, 8, 8⟩, ⟨1, 0xD8, 0x10D8, 8, 0x10⟩]
    (ElfSym.bytes ⟨0x12, 0xD0, 4⟩ 1 ++ [0, 102, 0, 0, 0, 0, 0, 0] ++
      [0x90, 0x90, 0x90, 0xC3, 0, 0, 0, 0] ++ [1, 2, 3, 4, 5, 6, 7, 8])
    [⟨0, 0, 0, 0, 0, 0⟩, ⟨2, 0xB0, 24, 2, 0, 24⟩, ⟨3, 0xC8, 8, 0, 0, 0⟩, ⟨3, 0xC8, 1, 0, 0, 0⟩]

theorem headerCount_functionFile : headerCount functionFile = 2 := by decide

theorem headers_functionFile {i : ℕ} (hi : i < headerCount functionFile) :
    i = 0 ∧ programHeader functionFile i = ⟨1, 0xD0, 0xD0, 8, 8⟩ ∨
      i = 1 ∧ programHeader functionFile i = ⟨1, 0xD8, 0x10D8, 8, 0x10⟩ := by
  rw [headerCount_functionFile] at hi
  obtain rfl | rfl : i = 0 ∨ i = 1 := by omega
  · exact .inl ⟨rfl, by decide⟩
  · exact .inr ⟨rfl, by decide⟩

theorem symbols_functionFile {place : ℕ} (hplace : place ∈ symbolPlaces functionFile) :
    symbolAt functionFile place = ⟨0x12, 0xD0, 4⟩ := by
  have hplaces : symbolPlaces functionFile = [0xB0] := by decide +kernel
  rw [hplaces, List.mem_singleton] at hplace
  subst hplace
  decide +kernel

theorem validModule_functionFile : ValidModule moduleBase functionFile where
  start := by decide
  segments i hi := by
    rcases headers_functionFile hi with ⟨-, hheader⟩ | ⟨-, hheader⟩
    · rw [hheader]
      decide
    · rw [hheader]
      decide
  functions place hplace _ := by
    rw [symbols_functionFile hplace]
    decide
  size i hi _ := by
    rcases headers_functionFile hi with ⟨-, hheader⟩ | ⟨-, hheader⟩
    · rw [hheader]
    · rw [hheader]
      decide
  apart i hi j hj _ _ hne a ha ha' := by
    rcases headers_functionFile hi with ⟨rfl, hheader⟩ | ⟨rfl, hheader⟩
    · rcases headers_functionFile hj with ⟨rfl, hheader'⟩ | ⟨rfl, hheader'⟩
      · exact hne rfl
      · rw [hheader] at ha
        rw [hheader'] at ha'
        dsimp only [ProgramHeader.Occupied] at ha ha'
        omega
    · rcases headers_functionFile hj with ⟨rfl, hheader'⟩ | ⟨rfl, hheader'⟩
      · rw [hheader] at ha
        rw [hheader'] at ha'
        dsimp only [ProgramHeader.Occupied] at ha ha'
        omega
      · exact hne rfl
  agree i _ j hj _ hload := by
    rcases headers_functionFile hj with ⟨-, hheader⟩ | ⟨-, hheader⟩
    · exact absurd (by rw [hheader]; rfl) hload
    · exact absurd (by rw [hheader]; rfl) hload

/-- A module whose function lies at its place in the file. -/
theorem module_image_function : ∃ t', kernelLoadElfLibrary bootPlatform 8 ⟨loaderKernel, []⟩ functionFile =
      .ok (moduleBase, t') ∧
    SegmentsMapped bootPlatform loaderRoot moduleBase functionFile t'.kernel.mmu.mem ∧
      SegmentsHeld bootPlatform loaderRoot moduleBase functionFile t'.kernel.mmu.mem := by
  have hrun : (kernelLoadElfLibrary bootPlatform 8 ⟨loaderKernel, []⟩ functionFile).toOption.map
      (fun r => (r.1, decide (r.2.kernel.mmu.stackPosition ≤ 16))) = some (moduleBase, true) := by
    decide +kernel
  obtain ⟨⟨base, t'⟩, hload, hresult⟩ := exists_ok hrun
  obtain ⟨rfl, hpos⟩ := Prod.mk.inj hresult
  refine ⟨t', hload, (module_image_iff validModule_functionFile loaderKernel_module rfl (by decide)
    (by decide) hload (of_decide_eq_true hpos)).mpr ⟨?_, ?_⟩⟩
  · intro i hi _ a ha
    obtain ⟨-, hhigh⟩ := ha
    have hfirst : programHeader functionFile 0 = ⟨1, 0xD0, 0xD0, 8, 8⟩ := by decide
    refine .inr ⟨0, by decide, ?_⟩
    rw [hfirst]
    rcases headers_functionFile hi with ⟨-, hheader⟩ | ⟨-, hheader⟩
    · rw [hheader] at hhigh
      dsimp only at hhigh ⊢
      omega
    · rw [hheader] at hhigh
      dsimp only at hhigh ⊢
      omega
  · rintro i hi - a ⟨hlow, -⟩ ⟨place, hplace, -, -, hcovered⟩
    rw [symbols_functionFile hplace] at hcovered
    rcases headers_functionFile hi with ⟨-, hheader⟩ | ⟨-, hheader⟩
    · -- the place in the file is the address
      rw [hheader] at hlow ⊢
      dsimp only [ProgramHeader.placeOf] at hlow ⊢
      rw [Nat.add_sub_cancel' hlow]
    · rw [hheader] at hlow
      dsimp only at hlow hcovered
      omega

/-- A segment of 16 bytes that starts five pages behind the base. -/
def farFile : List UInt8 := executable 0 [⟨1, 0, 0x5000, 0, 0x10⟩] []

theorem far_not_mapped : ValidModule moduleBase farFile ∧
    ∃ t', kernelLoadElfLibrary bootPlatform 8 ⟨loaderKernel, []⟩ farFile = .ok (moduleBase, t') ∧
      ¬ SegmentsMapped bootPlatform loaderRoot moduleBase farFile t'.kernel.mmu.mem := by
  have hrun : (kernelLoadElfLibrary bootPlatform 8 ⟨loaderKernel, []⟩ farFile).toOption.map
      (fun r => (r.1, (physical bootPlatform r.2.kernel.mmu.mem loaderRoot (moduleBase + 0x5000)).isSome)) =
        some (moduleBase, false) := by decide +kernel
  have hheader : programHeader farFile 0 = ⟨1, 0, 0x5000, 0, 0x10⟩ := by decide
  have hcount : headerCount farFile = 1 := by decide
  obtain ⟨⟨base, t'⟩, hload, hresult⟩ := exists_ok hrun
  obtain ⟨rfl, hunmapped⟩ := Prod.mk.inj hresult
  refine ⟨validModule_one hcount (by decide) (by rw [hheader]; decide) (by rw [hheader]; decide),
    t', hload, fun hmapped => ?_⟩
  have hbyte := hmapped 0 (by omega) (by rw [hheader]; rfl) 0x5000
    (by rw [hheader]; exact ⟨by decide, by decide⟩)
  exact absurd (hbyte.symm.trans hunmapped) (by decide)

end Cutesugar.Kernel.Elf
