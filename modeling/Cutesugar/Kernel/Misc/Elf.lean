import Cutesugar.Kernel.Arch.AddressSpace
import Cutesugar.Kernel.Fs.Ramfs

/-!
# Loading ELF files (`kernel/misc/elf.c`)

A file is the list of its bytes, and a pointer into it an offset modulo `2 ^ 64`, so a read outside of
the file is a fault. What is loaded is written at virtual addresses, through the tables of the
register `cr3`.

`fuel` bounds the rounds of the loop that maps pages; that loop goes on forever where its bound is a
multiple of the page size that 64 bits cannot exceed.

- `ELFHeader`: `program_entry_offset` at offset 24, `program_header_offset` at 32,
  `section_header_offset` at 40, `program_table_entry_size` at 54, `program_table_entry_number` at 56,
  `section_table_entry_number` at 60, `string_table_index` at 62.
- `ELFProgramHeader`: `segment_type` at offset 0, `file_offset` at 8, `virtual_address` at 16,
  `file_size` at 32, `memory_size` at 40.
- `ELFSectionHeader`: 64 bytes, `type` at offset 4, `address` at 16, `offset` at 24, `size` at 32,
  `link` at 40, `info` at 44, `entry_size` at 56.
- `ELFSym`: 24 bytes, `name` at offset 0, `info` at 4, `value` at 8, `size` at 16.
-/

namespace Cutesugar.Kernel.Elf

open Lib Mmu Fs

/-- Why a function does not return. -/
inductive Fault where
  /-- a null pointer is followed -/
  | null
  /-- a division by zero -/
  | divide
  /-- a read outside of the file -/
  | overread
  /-- a write behind the end of a name -/
  | overflow
  /-- a write to an address that is not mapped -/
  | unmapped
  /-- a call of something that is no reader of files -/
  | call
  /-- a loop that goes on beyond the bound -/
  | stuck
  deriving DecidableEq

/-! ## Reading the file -/

/-- A number of `n` bytes at a place in the file. -/
def readAt (file : List UInt8) (place n : ℕ) : Except Fault ℕ :=
  if place % 2 ^ 64 + n ≤ file.length then .ok (field file (place % 2 ^ 64) n)
  else .error .overread

def divide (a b : ℕ) : Except Fault ℕ := if b = 0 then .error .divide else .ok (a / b)

/-- The string at a place in the file. -/
def stringAt (file : List UInt8) (place : ℕ) : Except Fault (List UInt8) :=
  let rest := file.drop (place % 2 ^ 64)
  if 0 ∈ rest then .ok (rest.takeWhile (· ≠ 0)) else .error .overread

variable (P : Platform)

/-- `memcpy` from a place in the file to a virtual address, byte by byte. -/
def memcpyFrom (root : ℕ) (s : Mmu.State) (address : ℕ) (file : List UInt8) (place size : ℕ) :
    Except Fault Mmu.State :=
  let bytes := (file.drop (place % 2 ^ 64)).take size
  match copyTo P root s.mem address bytes with
  | none => .error .unmapped
  | some m => if bytes.length < size then .error .overread else .ok (s.withMem m)

/-- The loop that maps pages from an address on, with its variable `x`. -/
def mapPages (root address bound : ℕ) : ℕ → Mmu.State → ℕ → Except Fault Mmu.State
  | 0, _, _ => .error .stuck
  | fuel + 1, s, x =>
    if x ≤ bound then
      mapPages root address bound fuel (mapFrame P s root ((address + x) % 2 ^ 64))
        ((x + 0x1000) % 2 ^ 64)
    else .ok s

/-! ## Executables -/

/-- One program header of an executable: `root` is that of the process, `active` that of `cr3`. -/
def loadSegment (fuel root active : ℕ) (file : List UInt8) (s : Mmu.State) (place : ℕ) :
    Except Fault Mmu.State := do
  let fileSize ← readAt file (place + 32) 8
  let virtualAddress ← readAt file (place + 16) 8
  let s ← mapPages P root virtualAddress fileSize fuel s 0
  let fileOffset ← readAt file (place + 8) 8
  memcpyFrom P active s virtualAddress file fileOffset fileSize

/-- The tables of the current process. -/
def processRoot (s : State) : Except Fault ℕ :=
  let process := getCurrentProcess s
  if process = 0 then .error .null else .ok (((s.tasks process).cr3 + P.hhdmOffset) % 2 ^ 64)

/-- The tables that the register names. -/
def activeRoot (s : State) : ℕ := (s.cr3 + P.hhdmOffset) % 2 ^ 64

/-- The bytes that `ReadByte` returns, from offset 0 on. What the reader of the file system answers to
a call is `read`. -/
def fileBytes (I : Image) (read : ReadCall → Except Fault UInt8) (s : FsState) (fo : ℕ) :
    Except Fault (List UInt8) :=
  (List.range (s.files fo).size.toNat).mapM fun i : ℕ => read (readByte I s fo i)

/-- The reader of the file system in memory. -/
def ramfsReader (I : Image) (s : FsState) (c : ReadCall) : Except Fault UInt8 :=
  (c.run I s).elim (.error .call) .ok

/-- The loop over the program headers, from the state `s` on. -/
def loadSegments (fuel : ℕ) (k : State) (file : List UInt8) (number : ℕ) (s : Mmu.State) :
    Except Fault Mmu.State :=
  (List.range number).foldlM (fun s i => do
    let root ← processRoot P k
    let tableOffset ← readAt file 32 8
    let entrySize ← readAt file 54 2
    loadSegment P fuel root (activeRoot P k) file s (tableOffset + i * entrySize)) s

/-- `KernelLoadElfExecutable`, with the bytes of the file. -/
def loadExecutable (fuel : ℕ) (k : State) (file : List UInt8) : Except Fault (ℕ × State) := do
  let magic ← readAt file 0 1
  if magic ≠ 0x7F then .ok (0, k)
  else do
    let number ← readAt file 56 2
    let mmu ← loadSegments P fuel k file number k.mmu
    let entry ← readAt file 24 8
    .ok (entry, { k with mmu := mmu })

/-- `KernelLoadElfExecutable`. -/
def kernelLoadElfExecutable (I : Image) (read : ReadCall → Except Fault UInt8) (fuel : ℕ) (s : FsState)
    (fo : ℕ) : Except Fault (ℕ × FsState) :=
  if fo = 0 then .ok (0, s)
  else do
    let (_, k) := malloc s.kernel
    let file ← fileBytes I read { s with kernel := k } fo
    let (entry, k) ← loadExecutable P fuel k file
    .ok (entry, { s with kernel := k })

/-! ## Libraries -/

/-- `struct FunctionSymbolList`, an element of it. -/
structure FunctionSymbol where
  name : List UInt8
  function : ℕ
  deriving DecidableEq

/-- `add_to_symbols`. Names are compared with that of the first element only. -/
def addToSymbols (symbols : List FunctionSymbol) (function : ℕ) (name : List UInt8) :
    Except Fault (List FunctionSymbol) :=
  if 256 < name.length + 1 then .error .overflow
  else match symbols with
    | [] => .ok [⟨name, function⟩]
    | first :: rest =>
      if rest ≠ [] ∧ first.name = name then .ok symbols
      else .ok (symbols ++ [⟨name, function⟩])

/-- `search_for_modules`. -/
def searchForModules (symbols : List FunctionSymbol) (name : List UInt8) : ℕ :=
  match symbols.find? fun s => s.name = name with
  | some s => s.function
  | none => 0

/-- The kernel with `symbol_list`. -/
structure ElfState where
  kernel : State
  symbols : List FunctionSymbol

/-- One program header of a library. -/
def loadModuleSegment (fuel active base : ℕ) (file : List UInt8) (s : Mmu.State) (place : ℕ) :
    Except Fault Mmu.State := do
  let memorySize ← readAt file (place + 40) 8
  let s ← mapPages P active base ((memorySize / 0x1000 + 2) * 0x1000 % 2 ^ 64) fuel s 0
  let virtualAddress ← readAt file (place + 16) 8
  let fileOffset ← readAt file (place + 8) 8
  let fileSize ← readAt file (place + 32) 8
  memcpyFrom P active s (virtualAddress + base) file fileOffset fileSize

/-- One symbol of a library. -/
def loadSymbol (active base : ℕ) (file : List UInt8) (strings : ℕ)
    (s : Mmu.State × List FunctionSymbol) (place : ℕ) :
    Except Fault (Mmu.State × List FunctionSymbol) := do
  let info ← readAt file (place + 4) 1
  let value ← readAt file (place + 8) 8
  if info &&& 0xF = 2 ∧ value ≠ 0 then do
    let size ← readAt file (place + 16) 8
    -- the value is taken for the offset in the file too
    let mmu ← memcpyFrom P active s.1 (base + value) file value size
    let nameOffset ← readAt file place 4
    let name ← stringAt file (strings + nameOffset)
    let symbols ← addToSymbols s.2 ((value + base) % 2 ^ 64) name
    .ok (mmu, symbols)
  else .ok s

/-- The section header with an index; that of the string table is taken with the index before. -/
def sectionAt (sections : ℕ) (index : ℤ) : ℕ := ((sections + index * 64) % 2 ^ 64).toNat

/-- One section of a library. -/
def loadSection (active base : ℕ) (file : List UInt8) (sections : ℕ)
    (s : Mmu.State × List FunctionSymbol) (i : ℕ) :
    Except Fault (Mmu.State × List FunctionSymbol) := do
  let place := sectionAt sections i
  let type ← readAt file (place + 4) 4
  if type = 2 then do
    let table ← readAt file (place + 24) 8
    -- the string table is the section in front of that of the section names
    let stringIndex ← readAt file 62 2
    let strings ← readAt file (sectionAt sections (stringIndex - 1) + 24) 8
    let size ← readAt file (place + 32) 8
    let entrySize ← readAt file (place + 56) 8
    let number ← divide size entrySize
    (List.range number).foldlM (fun s j => loadSymbol P active base file strings s (table + 24 * j)) s
  else .ok s

/-- `KernelLoadElfLibrary`. -/
def kernelLoadElfLibrary (fuel : ℕ) (s : ElfState) (file : List UInt8) :
    Except Fault (ℕ × ElfState) := do
  let active := activeRoot P s.kernel
  let magic ← readAt file 0 1
  if magic ≠ 0x7F then .ok (0, s)
  else do
    let (frame, mmu) := kernelAllocateFrame s.kernel.mmu
    -- the address of a frame makes the base; the frame itself is not used
    let base := (frame + 0xffffc00000000000) % 2 ^ 64
    let sections ← readAt file 40 8
    let tableOffset ← readAt file 32 8
    let number ← readAt file 56 2
    let entrySize ← readAt file 54 2
    -- every program header, whatever its type
    let mmu ← (List.range number).foldlM (fun mmu i =>
      loadModuleSegment P fuel active base file mmu (tableOffset + i * entrySize)) mmu
    let sectionNumber ← readAt file 60 2
    let (mmu, symbols) ← (List.range sectionNumber).foldlM
      (loadSection P active base file sections) (mmu, s.symbols)
    .ok (base, { kernel := { s.kernel with mmu := mmu }, symbols := symbols })

end Cutesugar.Kernel.Elf
