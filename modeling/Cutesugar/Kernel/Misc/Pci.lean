import Cutesugar.Kernel.Object.Directory
import Cutesugar.Libc.Itoa

/-!
# PCI devices (`kernel/misc/pci.c`)

`HalCheckPciBus` looks at all functions of a bus and registers those it finds, and it goes on with the
bus behind a bridge. The configuration space is a function from the address register to the data
register, it does not change.

A registration is a parameter of `halCheckPciBus`, which returns the object it made; the one of the
kernel is `registerPciDevice`: the object is entered into `./Devices/PciDevices` under a name with the
number of the registration. The block of the information of an object is used by no other one, so it
stands in the record of the object itself.
-/

namespace Cutesugar.Kernel.Pci

open Lib Libc

/-! ## Configuration space -/

/-- `KernelReadPciConfigWord`. -/
def kernelReadPciConfigWord (space : UInt32 → UInt32) (bus slot function offset : UInt32) : UInt16 :=
  let address := (bus <<< 16) ||| (slot <<< 11) ||| (function <<< 8) ||| (offset &&& 0xFC) ||| 0x80000000
  ((space address >>> ((offset &&& 2) * 8)) &&& 0xFFFF).toUInt16

/-- The arguments of type `uint8_t` of the functions below. -/
structure Position where
  bus : UInt8
  slot : UInt8
  function : UInt8
  deriving DecidableEq

/-- The word at an offset, in the function of the position. -/
def Position.word (p : Position) (space : UInt32 → UInt32) (offset : UInt32) : UInt16 :=
  kernelReadPciConfigWord space p.bus.toUInt32 p.slot.toUInt32 p.function.toUInt32 offset

/-- `HalCheckPciDevice`. -/
def halCheckPciDevice (space : UInt32 → UInt32) (p : Position) : Bool := p.word space 0 != 0xFFFF

/-! ## Objects -/

/-- `struct PCIHeader`, as far as it is written. -/
structure PCIHeader where
  vendorId : UInt16
  deviceId : UInt16
  subclass : UInt8
  classCode : UInt8
  headerType : UInt8
  deriving DecidableEq

/-- `struct PCIDevice` and `struct PCItoPCI`. -/
inductive PciInformation where
  | device (header : PCIHeader) (baseAddress : List UInt32) (capabilityPointer : UInt16)
  | pciToPci (header : PCIHeader) (primaryBusNumber secondaryBusNumber : UInt8) (capabilityPointer : UInt16)
  deriving DecidableEq

/-- The header is the first field of both. -/
def PciInformation.header : PciInformation → PCIHeader
  | .device header _ _ => header
  | .pciToPci header _ _ _ => header

/-- `((struct PCItoPCI *) x)->secondary_bus_number`. -/
def PciInformation.secondaryBusNumber : PciInformation → UInt8
  | .pciToPci _ _ secondary _ => secondary
  -- this is where `base_address[2]` has its second byte
  | .device _ baseAddress _ => (baseAddress.getD 2 0 >>> 8).toUInt8

/-- `struct PCIObject` behind its header. -/
structure PCIObject where
  type : ℕ
  position : Position
  information : PciInformation
  deriving DecidableEq

/-- The header of a function. -/
def Position.header (p : Position) (space : UInt32 → UInt32) : PCIHeader where
  vendorId := p.word space 0
  deviceId := p.word space 2
  subclass := (p.word space 0xA &&& 0xFF).toUInt8
  classCode := (p.word space 0xA >>> 8 &&& 0xFF).toUInt8
  headerType := (p.word space 0xE &&& 0xFF).toUInt8

/-- What `HalAddPciDevice` stores into the object. For a bridge all is read from function 0. -/
def pciObject (space : UInt32 → UInt32) (p : Position) : PCIObject :=
  let first : Position := { p with function := 0 }
  if first.word space 0xE &&& 0xFF = 1 then
    { type := 1
      position := p
      information := .pciToPci (first.header space) (first.word space 0x1C &&& 0xFF).toUInt8
        (first.word space 0x1C >>> 8 &&& 0xFF).toUInt8 (first.word space 0x34 &&& 0xFF) }
  -- the six base addresses are read as two words each
  else
    { type := 0
      position := p
      information := .device (p.header space)
        ((List.range 6).map fun i => (p.word space (0x10 + 4 * UInt32.ofNat i)).toUInt32 |||
          ((p.word space (0x12 + 4 * UInt32.ofNat i)).toUInt32 <<< 16))
        (p.word space 0x34 &&& 0xFF) }

/-! ## Enumeration -/

/-- A `char` as an `int`. -/
def charOf (c : UInt8) : ℤ := c.toInt8.toInt

section Enumeration

variable {σ : Type} (space : UInt32 → UInt32) (register : σ → Position → Except Fault (PCIObject × σ))
  (check : σ → ℤ → Except Fault σ)

/-- The bus behind a bridge. -/
def checkBridge (s : σ) (x : PCIObject) : Except Fault σ :=
  if x.type = 1 then check s (charOf x.information.secondaryBusNumber) else .ok s

/-- A function of a device with more than one. -/
def checkFunction (busNum : ℤ) (dev : ℕ) (s : σ) (func : ℕ) : Except Fault σ :=
  let p : Position := ⟨UInt8.ofInt busNum, UInt8.ofNat dev, UInt8.ofNat func⟩
  if halCheckPciDevice space p then do
    let (x, s) ← register s p
    checkBridge check s x
  else .ok s

/-- A device. -/
def checkDevice (busNum : ℤ) (s : σ) (dev : ℕ) : Except Fault σ :=
  let p : Position := ⟨UInt8.ofInt busNum, UInt8.ofNat dev, 0⟩
  if halCheckPciDevice space p then do
    let (x, s) ← register s p
    let s ← checkBridge check s x
    if x.information.header.headerType &&& 0x80 ≠ 0 then
      (List.range' 1 7).foldlM (checkFunction space register check busNum dev) s
    else .ok s
  else .ok s

/-- `HalCheckPciBus`, with a bound on the nested calls. -/
def halCheckPciBus : ℕ → σ → ℤ → Except Fault σ
  | 0, _, _ => .error .stuck
  | fuel + 1, s, busNum =>
    (List.range 32).foldlM (checkDevice space register (halCheckPciBus fuel) busNum) s

end Enumeration

/-! ## Registration -/

/-- The kernel with the records of the PCI objects and `device_count`. -/
structure PciState where
  kernel : State
  objects : ℕ → PCIObject
  deviceCount : ℕ

/-- `"PciDevice"`. -/
def pciDeviceName : List UInt8 := [80, 99, 105, 68, 101, 118, 105, 99, 101]

/-- `"./Devices/PciDevices"`. -/
def pciDirectory : List UInt8 :=
  [46, 47, 68, 101, 118, 105, 99, 101, 115, 47, 80, 99, 105, 68, 101, 118, 105, 99, 101, 115]

theorem length_setName (field : List.Vector UInt8 64) (bs : List UInt8) :
    (bs.take 64 ++ field.toList.drop bs.length).length = 64 := by
  rw [List.length_append, List.length_take, List.length_drop, List.Vector.toList_length]
  omega

/-- Bytes at the start of the name field; they fit. -/
def setName (field : List.Vector UInt8 64) (bs : List UInt8) : List.Vector UInt8 64 :=
  ⟨bs.take 64 ++ field.toList.drop bs.length, length_setName field bs⟩

/-- `HalAddPciDevice`, with the array that `name` points to. A function that is not there is null before
any block is kept. -/
def halAddPciDevice (fuel : ℕ) (space : UInt32 → UInt32) (s : PciState) (p : Position) (name : List UInt8) :
    Except Fault (ℕ × PciState) := do
  let dir ← resolveObjectName fuel s.kernel fuel 0 (some (pciDirectory ++ [0]))
  if dir = 0 then .ok (0, s)
  else if p.word space 0 = 0xFFFF then .ok (0, s)
  else do
    let (object, kernel) := malloc s.kernel
    -- the information
    let (_, kernel) := malloc kernel
    let len ← strlen name
    let old := kernel.objects object
    let kernel := kernel.setObject object
      { old with header := { old.header with name := setName old.header.name (name.take (len + 1)) } }
    let kernel ← (directoryAddChild fuel kernel dir object).elim (.error .stuck) .ok
    .ok (object, { s with kernel := kernel, objects := Function.update s.objects object (pciObject space p) })

/-- The name with the number of a registration. -/
def numberedName (size : ℕ) (stem : List UInt8) (number : ℕ) : Except Fault (List UInt8) := do
  let numstr ← itoa number 10 (List.replicate 4 0)
  strcat (pad size stem) numstr

/-- What `HalCheckPciBus` does before it looks at the type of the new object. -/
def registerPciDevice (fuel : ℕ) (space : UInt32 → UInt32) (s : PciState) (p : Position) :
    Except Fault (PCIObject × PciState) := do
  let name ← numberedName 16 pciDeviceName s.deviceCount
  let (x, s) ← halAddPciDevice fuel space { s with deviceCount := s.deviceCount + 1 } p name
  if x = 0 then .error .null else .ok (s.objects x, s)

/-! ## Search -/

/-- The loop of `HalSearchForPciDevice` from a round on. -/
def searchLoop (fuel : ℕ) (s : PciState) (classCode subclass : UInt8) : ℕ → ℕ → ℕ → Except Fault ℕ
  -- behind the loop nothing is returned
  | 0, _, _ => .error .stuck
  | rounds + 1, i, number => do
    let name ← numberedName 48 (pciDirectory ++ 47 :: pciDeviceName) i
    let object ← resolveObjectName fuel s.kernel fuel 0 (some name)
    if object = 0 then .ok 0
    else if (s.objects object).information.header.classCode ≠ classCode ∨
        (s.objects object).information.header.subclass ≠ subclass then
      searchLoop fuel s classCode subclass rounds (i + 1) number
    else if number ≠ 0 then searchLoop fuel s classCode subclass rounds (i + 1) (number - 1)
    else .ok object

/-- `HalSearchForPciDevice`. -/
def halSearchForPciDevice (fuel : ℕ) (s : PciState) (classCode subclass : UInt8) (number : ℕ) :
    Except Fault ℕ :=
  searchLoop fuel s classCode subclass 8192 0 number

end Cutesugar.Kernel.Pci
