import Cutesugar.Lib.Memory

/-!
# Paging (`kernel/arch/mmu.c`)

Four levels of tables, each of 512 entries of 8 bytes, in one flat memory. Physical frames
are accessed at the HHDM offset. A table is named by the address it is accessed at, so a root
is `kernel_pml4` or a frame plus the offset, and the tables below it are what an entry names
once masked and joined with the offset.

Machine words are natural numbers; `store64` truncates to 64 bits.
-/

namespace Cutesugar.Kernel.Mmu

open Lib Lib.Memory

/-! ## State -/

/-- What the boot loader and the linker decide: the HHDM offset and the address of the array
`kernel_pml4`. -/
structure Platform where
  hhdmOffset : ℕ
  kernelPml4 : ℕ
  hhdmOffset_lt : hhdmOffset < 2 ^ 64
  kernelPml4_ne : kernelPml4 ≠ 0

/-- The memory and the stack of free frames `mem_list`. -/
structure State where
  mem : Memory
  memList : ℕ → ℕ
  stackPosition : ℕ

def kernelAllocateFrame (s : State) : ℕ × State :=
  (s.memList s.stackPosition, { s with stackPosition := s.stackPosition + 1 })

/-! ## Entries and indices -/

/-- `~PAGE_ENTRY`, the part of an entry that names the next table. -/
def tableMask : ℕ := 0x7FFFFFFFFFFFFE00

/-- `~0x8000000000000FFF`, the part of an entry that names the page. -/
def pageMask : ℕ := 0x7FFFFFFFFFFFF000

def pml4Index (virtualAddress : ℕ) : ℕ := (virtualAddress >>> 39) &&& 0x1FF
def hpdIndex (virtualAddress : ℕ) : ℕ := (virtualAddress >>> 30) &&& 0x1FF
def lpdIndex (virtualAddress : ℕ) : ℕ := (virtualAddress >>> 21) &&& 0x1FF
def ptIndex (virtualAddress : ℕ) : ℕ := (virtualAddress >>> 12) &&& 0x1FF

/-- `table[index]`. -/
def entry (m : Memory) (table index : ℕ) : ℕ := m.load64 (table + 8 * index)

/-- `table[index] = value`. -/
def setEntry (m : Memory) (table index value : ℕ) : Memory := m.store64 (table + 8 * index) value

/-- The present bit of an entry. -/
def present (e : ℕ) : Bool := e &&& 1 != 0

variable (P : Platform)

/-! ## Lookup -/

/-- The table an entry names, as `KernelGetPhysicalAddress` computes it. -/
def addTable (e : ℕ) : ℕ := ((e &&& tableMask) + P.hhdmOffset) % 2 ^ 64

/-- The table an entry names, as the functions that write tables compute it. -/
def joinTable (e : ℕ) : ℕ := (e &&& tableMask) ||| P.hhdmOffset

def kernelGetPhysicalAddress (s : State) (pml4 virtualAddress : ℕ) : ℕ :=
  let hpd := entry s.mem pml4 (pml4Index virtualAddress)
  -- -4 to -1 as a `uint64_t`, by the level that is missing
  if !present hpd then 2 ^ 64 - 4 else
  let lpd := entry s.mem (addTable P hpd) (hpdIndex virtualAddress)
  if !present lpd then 2 ^ 64 - 3 else
  let pt := entry s.mem (addTable P lpd) (lpdIndex virtualAddress)
  if !present pt then 2 ^ 64 - 2 else
  let page := entry s.mem (addTable P pt) (ptIndex virtualAddress)
  if !present page then 2 ^ 64 - 1 else
  page &&& pageMask

/-! ## Mapping -/

/-- One level of the descent of `KernelMapPage` and `KernelMapMmio`: the table that entry
`index` of `table` names, allocated and zeroed first where the entry is not present. -/
def nextTable (s : State) (table index value : ℕ) : ℕ × State :=
  let address := entry s.mem table index
  if present address then (joinTable P address, s)
  else
    let (address, s) := kernelAllocateFrame s
    let m := s.mem.memset (address ||| P.hhdmOffset) 0 4096
    (joinTable P address, { s with mem := setEntry m table index (address ||| value) })

/-- The common body of `KernelMapPage` and `KernelMapMmio`. -/
def mapValue (s : State) (root virtualAddress physicalAddress value : ℕ) : State :=
  if root = 0 then s else
  let (hpd, s) := nextTable P s root (pml4Index virtualAddress) value
  let (lpd, s) := nextTable P s hpd (hpdIndex virtualAddress) value
  let (pt, s) := nextTable P s lpd (lpdIndex virtualAddress) value
  if present (entry s.mem pt (ptIndex virtualAddress)) then s
  else { s with mem := setEntry s.mem pt (ptIndex virtualAddress) (physicalAddress ||| value) }

def kernelMapMmio (s : State) (virtualAddress physicalAddress : ℕ) : State :=
  -- PAT_SECOND | PAT_FIRST | 0x3
  mapValue P s P.kernelPml4 virtualAddress physicalAddress (0x10 ||| 0x8 ||| 0x3)

def kernelMapPage (s : State) (root virtualAddress physicalAddress : ℕ) (user : UInt8) : State :=
  mapValue P s root virtualAddress physicalAddress (if user ≠ 0 then 7 else 3)

/-! ## Unmapping -/

def kernelUnmapPage (s : State) (root virtualAddress : ℕ) : ℤ × State :=
  if root = 0 then (-5, s) else
  let hpdAddress := entry s.mem root (pml4Index virtualAddress)
  if !present hpdAddress then (-4, s) else
  let hpdAddress := hpdAddress ||| P.hhdmOffset
  let hpd := joinTable P hpdAddress
  let lpdAddress := entry s.mem hpd (hpdIndex virtualAddress)
  if !present lpdAddress then (-3, s) else
  let lpd := joinTable P lpdAddress
  let ptAddress := entry s.mem lpd (lpdIndex virtualAddress)
  if !present ptAddress then (-2, s) else
  let pt := joinTable P ptAddress
  if !present (entry s.mem pt (ptIndex virtualAddress)) then (-1, s) else
  -- the tables stay, and so does the frame
  (0, { s with mem := setEntry s.mem pt (ptIndex virtualAddress) 0 })

/-! ## New page structures -/

def kernelNewPageStructure (s : State) (old : ℕ) : ℕ × State :=
  let (frame, s) := kernelAllocateFrame s
  let newRoot := (frame + P.hhdmOffset) % 2 ^ 64
  let m := s.mem.memset newRoot 0 2048
  let m := if old ≠ 0 then m.memcpy newRoot old 2048 else m
  let m := m.memcpy (newRoot + 8 * 256) (P.kernelPml4 + 8 * 256) 2048
  (newRoot, { s with mem := m })

end Cutesugar.Kernel.Mmu
