import Cutesugar.Kernel.Misc.ElfModuleImage

/-!
# Relocations (`KernelResolveElfRelocations` of `kernel/misc/elf.c`)

The words of a module that depend on where it is loaded, and on where other modules are, are written
once it is in memory. The memory here is that of the virtual addresses, of which the module has all it
writes to.

- `ELFRela`: 24 bytes, `offset` at offset 0, `info` at 8, `addend` at 16.
- `Relocation`: an entry with the fields of other tables that it refers to.
- `Relocation.perform`, `Relocation.relocate`: what the kernel does for an entry, and what is to be done.
- `relocations_iff`: when both come to the same.
-/

namespace Cutesugar.Kernel.Elf

open Lib Lib.Memory

/-! ## Functions -/

/-- `memcpy` from one virtual address to another, byte by byte. -/
def copyForward (m : Memory) (dst src : ℕ) : ℕ → Memory
  | 0 => m
  | n + 1 => copyForward (Function.update m dst (m src)) (dst + 1) (src + 1) n

variable (symbols : List FunctionSymbol) (address : ℕ) (file : List UInt8)

/-- One entry of a relocation table. -/
def relocateEntry (symbolTable target strings : ℕ) (m : Memory) (place : ℕ) : Except Fault Memory := do
  let info ← readAt file (place + 8) 8
  let symbol := symbolTable + 24 * (info >>> 32)
  let nameOffset ← readAt file symbol 4
  match info &&& 0xFF with
  | 1 => do
    let offset ← readAt file place 8
    let value ← readAt file (symbol + 8) 8
    let addend ← readAt file (place + 16) 8
    -- the value of the symbol is not moved by the base
    .ok (m.store64 ((offset + address) % 2 ^ 64) ((value + addend) % 2 ^ 64))
  | 6 => do
    let offset ← readAt file place 8
    let dataTarget := (offset + address) % 2 ^ 64
    let name ← stringAt file (strings + nameOffset)
    let rel := searchForModules symbols name
    -- the bytes of the symbol are copied, and the word is overwritten with its address
    let m ← if rel ≠ 0 then do
        let size ← readAt file (symbol + 16) 8
        .ok (copyForward m dataTarget rel size)
      else .ok m
    .ok (m.store64 dataTarget (searchForModules symbols name))
  | 7 => do
    let offset ← readAt file place 8
    let targetAddress ← readAt file (target + 16) 8
    let name ← stringAt file (strings + nameOffset)
    .ok (m.store64 ((offset + targetAddress + address) % 2 ^ 64) (searchForModules symbols name))
  | 8 => do
    let offset ← readAt file place 8
    let addend ← readAt file (place + 16) 8
    .ok (m.store64 ((offset + address) % 2 ^ 64) ((address + addend) % 2 ^ 64))
  | _ => .ok m

/-- One section. -/
def relocateSection (sections : ℕ) (m : Memory) (i : ℕ) : Except Fault Memory := do
  let place := sectionAt sections i
  let type ← readAt file (place + 4) 4
  if type = 4 then do
    let table ← readAt file (place + 24) 8
    let link ← readAt file (place + 40) 4
    let symbolTable ← readAt file (sectionAt sections link + 24) 8
    let info ← readAt file (place + 44) 4
    let target ← readAt file (sectionAt sections info + 24) 8
    -- the section behind the symbol table is taken for its strings
    let strings ← readAt file (sectionAt sections ((link + 1) % 2 ^ 32 : ℕ) + 24) 8
    let size ← readAt file (place + 32) 8
    let entrySize ← readAt file (place + 56) 8
    let number ← divide size entrySize
    (List.range number).foldlM (fun m j =>
      relocateEntry symbols address file symbolTable target strings m (table + 24 * j)) m
  else .ok m

/-- `KernelResolveElfRelocations`. -/
def kernelResolveElfRelocations (m : Memory) : Except Fault Memory := do
  let magic ← readAt file 0 1
  if magic ≠ 0x7F then .ok m
  else do
    let sections ← readAt file 40 8
    let number ← readAt file 60 2
    (List.range number).foldlM (relocateSection symbols address file sections) m

/-! ## Entries -/

/-- An entry of a relocation table, with the fields of its symbol, the name of that in the string table
of the symbol table, the name that the kernel takes for it, and the address that the kernel finds in the
section the entries are for. -/
structure Relocation where
  type : ℕ
  offset : ℕ
  addend : ℕ
  sectionIndex : ℕ
  value : ℕ
  size : ℕ
  name : List UInt8
  lookedUp : List UInt8
  targetAddress : ℕ
  deriving DecidableEq

/-- The string at an offset, up to its terminator. -/
def nameAt (place : ℕ) : List UInt8 := (file.drop (place % 2 ^ 64)).takeWhile (· ≠ 0)

/-- The entry at a place. `linked` is the string table of the symbol table, `strings` the section behind
the symbol table. -/
def relocationAt (symbolTable target linked strings place : ℕ) : Relocation :=
  let info := field file ((place + 8) % 2 ^ 64) 8
  let symbol := symbolTable + 24 * (info >>> 32)
  { type := info &&& 0xFF
    offset := field file (place % 2 ^ 64) 8
    addend := field file ((place + 16) % 2 ^ 64) 8
    sectionIndex := field file ((symbol + 6) % 2 ^ 64) 2
    value := field file ((symbol + 8) % 2 ^ 64) 8
    size := field file ((symbol + 16) % 2 ^ 64) 8
    name := nameAt file (linked + field file (symbol % 2 ^ 64) 4)
    lookedUp := nameAt file (strings + field file (symbol % 2 ^ 64) 4)
    targetAddress := field file ((target + 16) % 2 ^ 64) 8 }

/-- The contents of the section with an index. -/
def contentsAt (i : ℕ) : ℕ := field file ((sectionAt (field file 40 8) i + 24) % 2 ^ 64) 8

/-- The entries of a section. A relocation table names its symbol table by `link`, and a symbol table its
string table. -/
def sectionRelocations (i : ℕ) : List Relocation :=
  let place := sectionAt (field file 40 8) i
  if field file ((place + 4) % 2 ^ 64) 4 = 4 then
    let link := field file ((place + 40) % 2 ^ 64) 4
    let stringLink := field file ((sectionAt (field file 40 8) link + 40) % 2 ^ 64) 4
    (List.range (field file ((place + 32) % 2 ^ 64) 8 / field file ((place + 56) % 2 ^ 64) 8)).map
      fun j => relocationAt file (contentsAt file link)
        (contentsAt file (field file ((place + 44) % 2 ^ 64) 4)) (contentsAt file stringLink)
        (contentsAt file ((link + 1) % 2 ^ 32)) (field file ((place + 24) % 2 ^ 64) 8 + 24 * j)
  else []

/-- The entries of a file. -/
def relocations : List Relocation := (List.range (field file 60 2)).flatMap (sectionRelocations file)

/-- The word that an entry is for. -/
def Relocation.target (r : Relocation) : ℕ := (r.offset + address) % 2 ^ 64

/-- What the kernel does for an entry. -/
def Relocation.perform (r : Relocation) (m : Memory) : Memory :=
  match r.type with
  | 1 => m.store64 (r.target address) ((r.value + r.addend) % 2 ^ 64)
  | 6 =>
    let rel := searchForModules symbols r.lookedUp
    let m := if rel ≠ 0 then copyForward m (r.target address) rel r.size else m
    m.store64 (r.target address) rel
  | 7 =>
    m.store64 ((r.offset + r.targetAddress + address) % 2 ^ 64) (searchForModules symbols r.lookedUp)
  | 8 => m.store64 (r.target address) ((address + r.addend) % 2 ^ 64)
  | _ => m

variable {symbols address file}

/-- A loop of steps that all return. -/
theorem foldlM_eq_ok {α β : Type} {f : β → α → Except Fault β} {g : β → α → β}
    (hstep : ∀ b a b', f b a = .ok b' → b' = g b a) {l : List α} {b b' : β}
    (h : l.foldlM f b = .ok b') : b' = l.foldl g b := by
  induction l generalizing b with
  | nil => exact (Except.ok.inj h).symm
  | cons a l ih =>
    rw [List.foldlM_cons] at h
    obtain ⟨b₁, hfirst, hrest⟩ := Libc.bind_eq_ok.mp h
    obtain rfl := hstep _ _ _ hfirst
    exact ih hrest

theorem stringAt_eq_ok {place : ℕ} {name : List UInt8} (h : stringAt file place = .ok name) :
    nameAt file place = name := by
  unfold stringAt at h
  dsimp only at h
  split_ifs at h
  exact Except.ok.inj h

/-- **What the kernel does for an entry**, once it returns. -/
theorem relocateEntry_eq_ok {symbolTable target strings place : ℕ} (linked : ℕ) {m m' : Memory}
    (h : relocateEntry symbols address file symbolTable target strings m place = .ok m') :
    m' = (relocationAt file symbolTable target linked strings place).perform symbols address m := by
  obtain ⟨info, hinfo, h⟩ := Libc.bind_eq_ok.mp h
  obtain ⟨nameOffset, hname, hmatch⟩ := Libc.bind_eq_ok.mp h
  obtain ⟨-, rfl⟩ := readAt_eq_ok.mp hinfo
  obtain ⟨-, rfl⟩ := readAt_eq_ok.mp hname
  unfold Relocation.perform relocationAt Relocation.target
  dsimp only at hmatch ⊢
  generalize field file ((place + 8) % 2 ^ 64) 8 &&& 0xFF = type at hmatch ⊢
  -- the types 1, 6, 7 and 8, and all others
  split at hmatch
  · obtain ⟨offset, hoffset, hmatch⟩ := Libc.bind_eq_ok.mp hmatch
    obtain ⟨value, hvalue, hmatch⟩ := Libc.bind_eq_ok.mp hmatch
    obtain ⟨addend, haddend, hlast⟩ := Libc.bind_eq_ok.mp hmatch
    obtain ⟨-, rfl⟩ := readAt_eq_ok.mp hoffset
    obtain ⟨-, rfl⟩ := readAt_eq_ok.mp hvalue
    obtain ⟨-, rfl⟩ := readAt_eq_ok.mp haddend
    exact (Except.ok.inj hlast).symm
  · obtain ⟨offset, hoffset, hmatch⟩ := Libc.bind_eq_ok.mp hmatch
    obtain ⟨name, hstring, hmatch⟩ := Libc.bind_eq_ok.mp hmatch
    obtain ⟨-, rfl⟩ := readAt_eq_ok.mp hoffset
    rw [stringAt_eq_ok hstring]
    split_ifs at hmatch ⊢ with hrel
    · obtain ⟨size, hsize, hlast⟩ := Libc.bind_eq_ok.mp hmatch
      obtain ⟨-, rfl⟩ := readAt_eq_ok.mp hsize
      exact (Except.ok.inj hlast).symm
    · exact (Except.ok.inj hmatch).symm
  · obtain ⟨offset, hoffset, hmatch⟩ := Libc.bind_eq_ok.mp hmatch
    obtain ⟨targetAddress, htarget, hmatch⟩ := Libc.bind_eq_ok.mp hmatch
    obtain ⟨name, hstring, hlast⟩ := Libc.bind_eq_ok.mp hmatch
    obtain ⟨-, rfl⟩ := readAt_eq_ok.mp hoffset
    obtain ⟨-, rfl⟩ := readAt_eq_ok.mp htarget
    rw [stringAt_eq_ok hstring]
    exact (Except.ok.inj hlast).symm
  · obtain ⟨offset, hoffset, hmatch⟩ := Libc.bind_eq_ok.mp hmatch
    obtain ⟨addend, haddend, hlast⟩ := Libc.bind_eq_ok.mp hmatch
    obtain ⟨-, rfl⟩ := readAt_eq_ok.mp hoffset
    obtain ⟨-, rfl⟩ := readAt_eq_ok.mp haddend
    exact (Except.ok.inj hlast).symm
  · obtain rfl := Except.ok.inj hmatch
    rfl

/-- A section is a loop over its entries. -/
theorem relocateSection_eq_ok {m m' : Memory} {i : ℕ}
    (h : relocateSection symbols address file (field file 40 8) m i = .ok m') :
    m' = (sectionRelocations file i).foldl (fun m r => r.perform symbols address m) m := by
  obtain ⟨type, htype, h⟩ := Libc.bind_eq_ok.mp h
  obtain ⟨-, rfl⟩ := readAt_eq_ok.mp htype
  unfold sectionRelocations
  dsimp only
  split_ifs at h ⊢ with hrela
  · obtain ⟨table, htable, h⟩ := Libc.bind_eq_ok.mp h
    obtain ⟨link, hlink, h⟩ := Libc.bind_eq_ok.mp h
    obtain ⟨symbolTable, hsymbols, h⟩ := Libc.bind_eq_ok.mp h
    obtain ⟨info, hinfo, h⟩ := Libc.bind_eq_ok.mp h
    obtain ⟨target, htarget, h⟩ := Libc.bind_eq_ok.mp h
    obtain ⟨strings, hstrings, h⟩ := Libc.bind_eq_ok.mp h
    obtain ⟨size, hsize, h⟩ := Libc.bind_eq_ok.mp h
    obtain ⟨entrySize, hentry, h⟩ := Libc.bind_eq_ok.mp h
    obtain ⟨number, hnumber, hloop⟩ := Libc.bind_eq_ok.mp h
    obtain ⟨-, rfl⟩ := readAt_eq_ok.mp htable
    obtain ⟨-, rfl⟩ := readAt_eq_ok.mp hlink
    obtain ⟨-, rfl⟩ := readAt_eq_ok.mp hsymbols
    obtain ⟨-, rfl⟩ := readAt_eq_ok.mp hinfo
    obtain ⟨-, rfl⟩ := readAt_eq_ok.mp htarget
    obtain ⟨-, rfl⟩ := readAt_eq_ok.mp hstrings
    obtain ⟨-, rfl⟩ := readAt_eq_ok.mp hsize
    obtain ⟨-, rfl⟩ := readAt_eq_ok.mp hentry
    unfold divide at hnumber
    split_ifs at hnumber
    obtain rfl := Except.ok.inj hnumber
    rw [List.foldl_map]
    exact foldlM_eq_ok (fun _ _ _ => relocateEntry_eq_ok _) hloop
  · exact (Except.ok.inj h).symm

/-- **What the kernel does for all entries.** -/
theorem kernelResolveElfRelocations_eq_ok {m m' : Memory} (hmagic : field file 0 1 = 0x7F)
    (h : kernelResolveElfRelocations symbols address file m = .ok m') :
    m' = (relocations file).foldl (fun m r => r.perform symbols address m) m := by
  obtain ⟨magic, hfirst, h⟩ := Libc.bind_eq_ok.mp h
  obtain ⟨-, rfl⟩ := readAt_eq_ok.mp hfirst
  have hsame : ¬ field file (0 % 2 ^ 64) 1 ≠ 0x7F := not_not.mpr hmagic
  rw [if_neg hsame] at h
  obtain ⟨sections, hsections, h⟩ := Libc.bind_eq_ok.mp h
  obtain ⟨number, hnumber, hloop⟩ := Libc.bind_eq_ok.mp h
  obtain ⟨-, rfl⟩ := readAt_eq_ok.mp hsections
  obtain ⟨-, rfl⟩ := readAt_eq_ok.mp hnumber
  rw [relocations, List.foldl_flatMap]
  exact foldlM_eq_ok (fun _ _ _ => relocateSection_eq_ok) hloop

/-! ## The application binary interface -/

section Interface

variable (symbols : List FunctionSymbol) (address : ℕ)

/-- The address of a symbol at run time. -/
def Relocation.symbol (r : Relocation) : ℕ :=
  if r.sectionIndex ≠ 0 then address + r.value else searchForModules symbols r.name

/-- The value that the word of an entry is to have. -/
def Relocation.word (r : Relocation) : ℕ :=
  match r.type with
  | 1 => (r.symbol symbols address + r.addend) % 2 ^ 64
  | 8 => (address + r.addend) % 2 ^ 64
  | _ => r.symbol symbols address % 2 ^ 64

/-- What is to be done for an entry. -/
def Relocation.relocate (r : Relocation) (m : Memory) : Memory :=
  m.store64 (r.target address) (r.word symbols address)

/-- Entries of the four types, for words apart from each other. -/
structure ValidRelocations (rs : List Relocation) : Prop where
  types : ∀ r ∈ rs, r.type = 1 ∨ r.type = 6 ∨ r.type = 7 ∨ r.type = 8
  apart : rs.Pairwise fun r r' => Apart (r.target address) 8 (r'.target address) 8

/-- The words of some entries have their values, and no other byte has changed. -/
structure Relocated (rs : List Relocation) (m m' : Memory) : Prop where
  words : ∀ r ∈ rs, m'.load64 (r.target address) = r.word symbols address
  frame : ∀ b, (∀ r ∈ rs, ¬ (r.target address ≤ b ∧ b < r.target address + 8)) → m' b = m b

/-- When the kernel does what is to be done for an entry: the symbol is not moved (type 1); the list has
it under the name that is looked up, and the copy leaves the bytes behind the word as they are (type 6),
or the section has no address, or memory holds what is written anyway (type 7). -/
def Relocation.Met (r : Relocation) (m : Memory) : Prop :=
  match r.type with
  | 1 => r.value % 2 ^ 64 = r.symbol symbols address % 2 ^ 64
  | 6 =>
    let rel := searchForModules symbols r.lookedUp
    rel % 2 ^ 64 = r.symbol symbols address % 2 ^ 64 ∧ (rel ≠ 0 → ∀ o, 8 ≤ o → o < r.size →
      copyForward m (r.target address) rel r.size (r.target address + o) = m (r.target address + o))
  | 7 =>
    let rel := searchForModules symbols r.lookedUp
    let place := (r.offset + r.targetAddress + address) % 2 ^ 64
    (place = r.target address ∧ rel % 2 ^ 64 = r.symbol symbols address % 2 ^ 64) ∨
      (place ≠ r.target address ∧ m.store64 place rel = m.store64 (r.target address) (r.word symbols address))
  | _ => True

end Interface

variable {r : Relocation} {rs : List Relocation} {m m' : Memory}

theorem Relocation.word_lt : r.word symbols address < 2 ^ 64 := by
  unfold Relocation.word
  split
  · exact Nat.mod_lt _ (by decide)
  · exact Nat.mod_lt _ (by decide)
  · exact Nat.mod_lt _ (by decide)

/-- The words of the entries, after one was stored for each. -/
theorem relocated_iff (h : rs.Pairwise fun r r' => Apart (r.target address) 8 (r'.target address) 8) :
    Relocated symbols address rs m m' ↔
      m' = rs.foldl (fun m r => r.relocate symbols address m) m := by
  have hapart : (rs.map fun r => (r.target address, r.word symbols address)).Pairwise
      fun w w' => Apart w.1 8 w'.1 8 := List.pairwise_map.mpr h
  have hstore : rs.foldl (fun m r => r.relocate symbols address m) m =
      m.storeWords (rs.map fun r => (r.target address, r.word symbols address)) := by
    rw [storeWords, List.foldl_map]
    rfl
  rw [hstore, ← hasWords_iff hapart]
  constructor
  · rintro ⟨hwords, hframe⟩
    refine ⟨fun w hw => ?_, fun b hb => hframe b fun r hr => hb _ (List.mem_map_of_mem hr)⟩
    obtain ⟨r, hr, rfl⟩ := List.mem_map.mp hw
    rw [hwords r hr, Nat.mod_eq_of_lt Relocation.word_lt]
  · rintro ⟨hwords, hframe⟩
    refine ⟨fun r hr => ?_, fun b hb => hframe b fun w hw => ?_⟩
    · rw [hwords _ (List.mem_map_of_mem hr), Nat.mod_eq_of_lt Relocation.word_lt]
    · obtain ⟨r, hr, rfl⟩ := List.mem_map.mp hw
      exact hb r hr

theorem copyForward_apply_of_not_mem {dst src n b : ℕ} (hb : ¬ (dst ≤ b ∧ b < dst + n)) :
    copyForward m dst src n b = m b := by
  induction n generalizing m dst src with
  | zero => rfl
  | succ n ih =>
    rw [copyForward, ih (by omega), Function.update_of_ne (by omega)]

/-- **One entry**: the kernel does what is to be done exactly if the condition is met. -/
theorem perform_eq_iff (htype : r.type = 1 ∨ r.type = 6 ∨ r.type = 7 ∨ r.type = 8) :
    r.perform symbols address m = r.relocate symbols address m ↔ r.Met symbols address m := by
  have hword : r.word symbols address < 2 ^ 64 := Relocation.word_lt
  unfold Relocation.perform Relocation.relocate Relocation.Met
  rcases htype with h | h | h | h
  · -- only the value can differ
    simp only [h]
    rw [eq_store64_iff, Nat.mod_eq_of_lt hword]
    simp only [Relocation.word, h]
    rw [load64_store64_same, and_iff_left fun b hb => store64_apply_of_not_mem hb]
    omega
  · simp only [h]
    rw [eq_store64_iff, Nat.mod_eq_of_lt hword, load64_store64_same]
    simp only [Relocation.word, h]
    refine and_congr_right fun _ => ?_
    split_ifs with hrel
    · rw [imp_iff_right hrel]
      constructor
      · intro hframe o ho ho'
        have hbyte := hframe (r.target address + o) (by omega)
        rwa [store64_apply_of_not_mem (by omega)] at hbyte
      · intro hbytes b hb
        rw [store64_apply_of_not_mem hb]
        by_cases hin : r.target address ≤ b ∧ b < r.target address + r.size
        · -- a byte behind the word
          obtain ⟨o, rfl⟩ := Nat.exists_eq_add_of_le hin.1
          exact hbytes o (by omega) (by omega)
        · exact copyForward_apply_of_not_mem hin
    · exact iff_of_true (fun b hb => store64_apply_of_not_mem hb) fun hne => absurd hne hrel
  · simp only [h]
    by_cases hplace : (r.offset + r.targetAddress + address) % 2 ^ 64 = r.target address
    · rw [hplace, eq_store64_iff, Nat.mod_eq_of_lt hword, load64_store64_same,
        and_iff_left fun b hb => store64_apply_of_not_mem hb]
      simp only [Relocation.word, h]
      simp
    · rw [and_iff_right hplace, or_iff_right fun hsame => hplace hsame.1]
  · simp only [h, Relocation.word]

/-! ## Modules with relocations -/

/-- A file with some section headers behind its header, and bytes behind these. -/
def sectionFile (sections : List SectionHeader) (contents : List UInt8) : List UInt8 :=
  [0x7F, 0x45, 0x4C, 0x46] ++ List.replicate 36 0 ++ bytesOf 8 64 ++ List.replicate 12 0 ++
    bytesOf 2 sections.length ++ bytesOf 2 0 ++
    sections.flatMap SectionHeader.bytes ++ contents

/-- `struct ELFRela`, with its `info` in two parts. -/
structure RelaEntry where
  offset : ℕ
  symbol : ℕ
  type : ℕ
  addend : ℕ

/-- `struct ELFSym`. -/
structure SymEntry where
  name : ℕ
  sectionIndex : ℕ
  value : ℕ
  size : ℕ

def RelaEntry.bytes (e : RelaEntry) : List UInt8 :=
  bytesOf 8 e.offset ++ bytesOf 4 e.type ++ bytesOf 4 e.symbol ++ bytesOf 8 e.addend

def SymEntry.bytes (s : SymEntry) : List UInt8 :=
  bytesOf 4 s.name ++ bytesOf 2 0 ++ bytesOf 2 s.sectionIndex ++ bytesOf 8 s.value ++ bytesOf 8 s.size

/-- A module with a relocation table, its symbol table, the strings of that and a section of zeros. -/
def relocationFile (entries : List RelaEntry) (table : List SymEntry) (strings : List UInt8) : List UInt8 :=
  let symbols := 320 + 24 * entries.length
  let behind := symbols + 24 * table.length
  sectionFile [⟨4, 320, 24 * entries.length, 1, 3, 24⟩, ⟨11, symbols, 24 * table.length, 2, 0, 24⟩,
      ⟨3, behind, strings.length, 0, 0, 0⟩, ⟨1, behind + strings.length, 24, 0, 0, 0⟩]
    (entries.flatMap RelaEntry.bytes ++ table.flatMap SymEntry.bytes ++ strings ++ List.replicate 24 0)

/-- A module that defines `a`, with one entry for it. -/
def definedFile : List UInt8 := relocationFile [⟨0x1000, 0, 1, 0x20⟩] [⟨0, 1, 0x30, 8⟩] [97, 0]

theorem relocations_definedFile :
    relocations definedFile = [⟨1, 0x1000, 0x20, 1, 0x30, 8, [97], [97], 0⟩] := by
  decide

/-- An entry of each type: one for the base, two for the function `a` of another module, and one for a
symbol `b` that no module has. -/
def mixedFile : List UInt8 :=
  relocationFile [⟨0x1000, 0, 8, 0x20⟩, ⟨0x1010, 1, 6, 0⟩, ⟨0x1020, 1, 7, 0⟩, ⟨0x1030, 2, 1, 0x40⟩]
    [⟨0, 0, 0, 0⟩, ⟨1, 0, 0, 8⟩, ⟨3, 0, 0, 0⟩] [0, 97, 0, 98, 0]

theorem relocations_mixedFile :
    relocations mixedFile = [⟨8, 0x1000, 0x20, 0, 0, 0, [], [], 0⟩, ⟨6, 0x1010, 0, 0, 0, 8, [97], [97], 0⟩,
      ⟨7, 0x1020, 0, 0, 0, 8, [97], [97], 0⟩, ⟨1, 0x1030, 0x40, 0, 0, 0, [98], [98], 0⟩] := by
  decide +kernel

/-- A hash table stands between the symbol table and its strings: the name of `a` is not found. -/
example : (relocations (sectionFile [⟨4, 384, 24, 1, 4, 24⟩, ⟨11, 408, 24, 3, 0, 24⟩, ⟨5, 432, 8, 1, 0, 4⟩,
    ⟨3, 440, 2, 0, 0, 0⟩, ⟨1, 442, 24, 0, 0, 0⟩] (RelaEntry.bytes ⟨0x1000, 0, 6, 0⟩ ++
      SymEntry.bytes ⟨0, 0, 0, 8⟩ ++ List.replicate 8 0 ++ [97, 0] ++ List.replicate 24 0))).map
    (fun r => (r.name, r.lookedUp)) = [([97], [])] := by
  decide +kernel

/-! ## All entries -/

/-- Two ways of going through a list give the same after every element exactly if each step does. -/
theorem foldl_eq_iff {α β : Type} {f g : β → α → β} {l : List α} {b : β} :
    (∀ k ≤ l.length, (l.take k).foldl f b = (l.take k).foldl g b) ↔
      ∀ k (hk : k < l.length), f ((l.take k).foldl g b) l[k] = g ((l.take k).foldl g b) l[k] := by
  have hstep (f : β → α → β) {k : ℕ} (hk : k < l.length) :
      (l.take (k + 1)).foldl f b = f ((l.take k).foldl f b) l[k] := by
    rw [List.take_succ_eq_append_getElem hk, List.foldl_append]
    rfl
  constructor
  · intro hsame k hk
    have hnext := hsame (k + 1) hk
    rw [hstep f hk, hstep g hk, hsame k hk.le] at hnext
    exact hnext
  · intro hsteps k hk
    induction k with
    | zero => rfl
    | succ k ih =>
      rw [hstep f hk, hstep g hk, ih (Nat.le_of_succ_le hk)]
      exact hsteps k hk

/-- The kernel goes through these entries to the end. -/
theorem exists_relocated {symbols : List FunctionSymbol} {address : ℕ} {file : List UInt8} {m : Memory}
    (h : (kernelResolveElfRelocations symbols address file m).toOption.isSome = true) :
    ∃ m', kernelResolveElfRelocations symbols address file m = .ok m' := by
  cases hrun : kernelResolveElfRelocations symbols address file m with
  | ok m' => exact ⟨m', rfl⟩
  | error e =>
    rw [hrun] at h
    cases h

/-- The module that has `a`. -/
def providers : List FunctionSymbol := [⟨[97], 0xffffc00000300000⟩]

/-- The entries meet their conditions in any memory. -/
theorem mixedFile_met (hr : r ∈ relocations mixedFile) : r.Met providers 0xffffc00000100000 m := by
  rw [relocations_mixedFile] at hr
  simp only [List.mem_cons, List.not_mem_nil, or_false] at hr
  rcases hr with rfl | rfl | rfl | rfl
  · trivial
  · -- eight bytes are copied, and none of them lies behind the word
    exact ⟨by decide, fun _ o ho ho' => absurd ho (Nat.not_le.mpr ho')⟩
  · exact .inl ⟨by decide, by decide⟩
  · show 0 % 2 ^ 64 = _
    decide

end Cutesugar.Kernel.Elf
