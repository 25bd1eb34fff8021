import Cutesugar.Libc.Format
import Cutesugar.Lib.Bytes
import Cutesugar.Lib.Memory

/-!
# The tables of the firmware (`kernel/arch/acpi.c`)

`KernelParseAcpi` walks over the RSDT for the tables signed `APIC` and `FACP`, and over the entries of
the first of them, the MADT. An entry says its kind in its first byte and how long it is in the second.
The index of either loop is an `int`, and its bound is a number without a sign that the length a header
states is taken from.

- `madtLoop`: the loop over the entries, on the bytes of the table.
- `rsdtLoop`: the loop over the pointers, on the memory they lead into.
- `kernelParseAcpi`: both, and the flags of the FADT.
-/

namespace Cutesugar.Kernel

open Lib Libc

/-! ## The MADT -/

/-- A call `CreateProcessor(device_dir, id, flags)`. -/
structure ProcessorCall where
  id : UInt32
  flags : UInt32
  deriving DecidableEq

/-- The MADT: the length that its header states, and that many bytes. -/
structure Madt where
  length : UInt32
  bytes : List UInt8
  sized : bytes.length = length.toNat

/-- What the loop over the entries leaves behind. -/
structure MadtState where
  ioapicAddress : ℕ
  processors : List ProcessorCall
  deriving DecidableEq

/-- A byte of the table. -/
def Madt.byte (t : Madt) (a : ℕ) : Except Fault UInt8 :=
  match t.bytes[a]? with
  | some b => .ok b
  | none => .error .overread

/-- Four bytes of the table. -/
def Madt.word (t : Madt) (a : ℕ) : Except Fault ℕ :=
  if a + 4 ≤ t.bytes.length then .ok (field t.bytes a 4) else .error .overread

/-- `pointer + i`, from the start of the table. -/
def entryOffset (i : Int32) : ℕ := (0x2c + ofInt i) % 2 ^ 64

/-- `madt->sdt_header.length - sizeof(struct SDTHeader) - 8`. -/
def Madt.bound (t : Madt) : ℕ := ((t.length.toNat + 2 ^ 64 - 36) % 2 ^ 64 + 2 ^ 64 - 8) % 2 ^ 64

/-- What an entry is taken for. -/
def madtEntry (hhdm : ℕ) (t : Madt) (i : Int32) (m : MadtState) : Except Fault MadtState := do
  let kind ← t.byte (entryOffset i)
  if kind = 0 then
    -- the flags of the entry are not read: `CreateProcessor` gets 0
    let id ← t.byte (entryOffset i + 3)
    .ok { m with processors := m.processors ++ [⟨id.toUInt32, 0⟩] }
  else if kind = 1 then
    let address ← t.word (entryOffset i + 4)
    .ok { m with ioapicAddress := address ||| hhdm }
  else .ok m

/-- The loop over the entries. -/
def madtLoop (hhdm : ℕ) (t : Madt) : ℕ → Int32 → MadtState → Except Fault MadtState
  | 0, _, _ => .error .stuck
  | fuel + 1, i, m =>
    if ofInt i < t.bound then do
      let m ← madtEntry hhdm t i m
      let size ← t.byte (entryOffset i + 1)
      madtLoop hhdm t fuel (i + Int32.ofNat size.toNat) m
    else .ok m

/-! ## The RSDT -/

/-- What the loop over the RSDT has read: the pointers, and the tables they lead to. -/
structure RsdtState where
  pointers : List ℕ
  headers : List ℕ
  madt : ℕ
  fadt : ℕ
  deriving DecidableEq

/-- `header->signature`. -/
def signature (mem : Memory) (header : ℕ) : List UInt8 := (List.range 4).map fun k => mem (header + k)

/-- `"APIC"`. -/
def apic : List UInt8 := [65, 80, 73, 67, 0]

/-- `"FACP"`. -/
def facp : List UInt8 := [70, 65, 67, 80, 0]

/-- `other_headers + i`. -/
def pointerAddress (rsdt : ℕ) (i : Int32) : ℕ := (rsdt + 36 + 4 * ofInt i) % 2 ^ 64

/-- `(rsdt->sdt_header.length - sizeof(struct SDTHeader)) / 4`. -/
def rsdtBound (mem : Memory) (rsdt : ℕ) : ℕ := (mem.load (rsdt + 4) 4 + 2 ^ 64 - 36) % 2 ^ 64 / 4

/-- A table that the RSDT leads to. -/
def rsdtEntry (mem : Memory) (header : ℕ) (r : RsdtState) : Except Fault RsdtState := do
  let order ← strncmp apic (signature mem header) 4
  if order = 0 then .ok { r with madt := header }
  else
    let order ← strncmp facp (signature mem header) 4
    if order = 0 then .ok { r with fadt := header } else .ok r

/-- The loop over the pointers. -/
def rsdtLoop (hhdm : ℕ) (mem : Memory) (rsdt : ℕ) : ℕ → Int32 → RsdtState → Except Fault RsdtState
  | 0, _, _ => .error .stuck
  | fuel + 1, i, r =>
    -- `<=`: one pointer more than there are
    if ofInt i ≤ rsdtBound mem rsdt then do
      let pointer := pointerAddress rsdt i
      let header := (mem.load pointer 4 + hhdm) % 2 ^ 64
      let r ← rsdtEntry mem header
        { r with pointers := r.pointers ++ [pointer], headers := r.headers ++ [header] }
      rsdtLoop hhdm mem rsdt fuel (i + 1) r
    else .ok r

/-! ## `KernelParseAcpi` -/

/-- What `KernelParseAcpi` leaves behind: the variables of the file, and the processors it creates. -/
structure AcpiState where
  madt : ℕ
  fadt : ℕ
  ioapicAddress : ℕ
  supportsPs2 : Bool
  processors : List ProcessorCall
  deriving DecidableEq

/-- The MADT in memory. -/
def madtAt (mem : Memory) (madt : ℕ) : Madt where
  length := UInt32.ofNat (mem.load (madt + 4) 4)
  bytes := (List.range (UInt32.ofNat (mem.load (madt + 4) 4)).toNat).map fun k => mem (madt + k)
  sized := by rw [List.length_map, List.length_range]

/-- `KernelParseAcpi`. -/
def kernelParseAcpi (hhdm rsdp : ℕ) (mem : Memory) (fuel : ℕ) (a : AcpiState) : Except Fault AcpiState := do
  let rsdt := mem.load ((rsdp ||| hhdm) + 16) 4 ||| hhdm
  let r ← rsdtLoop hhdm mem rsdt fuel 0 { pointers := [], headers := [], madt := a.madt, fadt := a.fadt }
  -- without a MADT nothing is walked
  let m ← if r.madt = 0 then .ok { ioapicAddress := a.ioapicAddress, processors := [] }
    else madtLoop hhdm (madtAt mem r.madt) fuel 0 { ioapicAddress := a.ioapicAddress, processors := [] }
  .ok {
    madt := r.madt
    fadt := r.fadt
    ioapicAddress := m.ioapicAddress
    supportsPs2 := a.supportsPs2 || r.fadt != 0 && (mem.load (r.fadt + 109) 2).testBit 1
    processors := a.processors ++ m.processors }

end Cutesugar.Kernel
