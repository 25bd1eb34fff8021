import Cutesugar.Kernel.Misc.Pci
import Cutesugar.Lib.Bits
import Cutesugar.Lib.Run

/-!
# Configuration space behind two ports (`kernel/misc/pci.c`)

A register of a function is selected through the port 0xCF8 and read or written through the port 0xCFC. What comes
of a write is up to the device: some bits cannot be written, and some are cleared by writing a one.

- `PciPorts`, `ConfigRun.step`: the two functions, one access to a port after the other.
- `ConfigStore.step`: a store of 32-bit registers, one for each place.
- `config_store`: calls through the ports are calls on the store.
-/

namespace Cutesugar.Kernel.Pci

open Lib

/-! ## The ports -/

/-- The register that is selected, and the registers. -/
structure PciPorts where
  selected : UInt32
  space : UInt32 → UInt32

/-- What becomes of a register, from its address, its content and what is written. -/
abbrev Devices := UInt32 → UInt32 → UInt32 → UInt32

def PciPorts.outl (D : Devices) (p : PciPorts) (port : UInt16) (value : UInt32) : PciPorts :=
  if port = 0xCF8 then { p with selected := value }
  else if port = 0xCFC then
    { p with space := Function.update p.space p.selected (D p.selected (p.space p.selected) value) }
  else p

def PciPorts.inl (p : PciPorts) (port : UInt16) : UInt32 :=
  if port = 0xCF8 then p.selected else if port = 0xCFC then p.space p.selected else 0xFFFFFFFF

/-- The address that both functions compute. -/
def configAddress (bus slot function offset : UInt32) : UInt32 :=
  (bus <<< 16) ||| (slot <<< 11) ||| (function <<< 8) ||| (offset &&& 0xFC) ||| 0x80000000

/-- `KernelReadPciConfigWord`, access by access. -/
def PciPorts.readConfigWord (D : Devices) (p : PciPorts) (bus slot function offset : UInt32) : UInt16 × PciPorts :=
  let p := p.outl D 0xCF8 (configAddress bus slot function offset)
  (((p.inl 0xCFC >>> ((offset &&& 2) * 8)) &&& 0xFFFF).toUInt16, p)

/-- `KernelWritePciConfigDword`. -/
def PciPorts.writeConfigDword (D : Devices) (p : PciPorts) (bus slot function offset value : UInt32) : PciPorts :=
  let p := p.outl D 0xCF8 (configAddress bus slot function offset)
  p.outl D 0xCFC value

inductive ConfigCall where
  | readWord (bus slot function offset : UInt32)
  | writeDword (bus slot function offset value : UInt32)

/-- The ports and the words that have been read. -/
structure ConfigRun where
  ports : PciPorts
  words : List UInt16

def ConfigRun.step (D : Devices) (r : ConfigRun) : ConfigCall → ConfigRun
  | .readWord bus slot function offset =>
    let (word, ports) := r.ports.readConfigWord D bus slot function offset
    ⟨ports, r.words ++ [word]⟩
  | .writeDword bus slot function offset value =>
    { r with ports := r.ports.writeConfigDword D bus slot function offset value }

/-! ## The store -/

/-- A register of a function, by its number. -/
structure Place where
  bus : ℕ
  slot : ℕ
  function : ℕ
  register : ℕ
  deriving DecidableEq

/-- The places that there are. -/
structure Place.Valid (x : Place) : Prop where
  bus : x.bus < 256
  slot : x.slot < 32
  function : x.function < 8
  register : x.register < 64

/-- Where a place is found. -/
def Place.address (x : Place) : UInt32 :=
  UInt32.ofNat (2 ^ 31 + x.bus * 2 ^ 16 + x.slot * 2 ^ 11 + x.function * 2 ^ 8 + x.register * 4)

/-- The place that an offset is in. -/
def placeOf (bus slot function offset : UInt32) : Place :=
  ⟨bus.toNat, slot.toNat, function.toNat, offset.toNat % 256 / 4⟩

/-- The half of a register that an offset is in. -/
def halfOf (content offset : UInt32) : UInt16 := ((content >>> ((offset &&& 2) * 8)) &&& 0xFFFF).toUInt16

/-- A register for each place, and the words that have been read. -/
structure ConfigStore where
  content : Place → UInt32
  words : List UInt16

def ConfigStore.step (D : Devices) (r : ConfigStore) : ConfigCall → ConfigStore
  | .readWord bus slot function offset =>
    { r with words := r.words ++ [halfOf (r.content (placeOf bus slot function offset)) offset] }
  | .writeDword bus slot function offset value =>
    let x := placeOf bus slot function offset
    { r with content := Function.update r.content x (D x.address (r.content x) value) }

/-- The call is about a place that there is. -/
def ConfigCall.Valid : ConfigCall → Prop
  | .readWord bus slot function offset => (placeOf bus slot function offset).Valid
  | .writeDword bus slot function offset _ => (placeOf bus slot function offset).Valid

/-- **The store behind the ports**: the same words, and in each place what the ports lead to. -/
structure ConfigRun.Refines (r : ConfigRun) (t : ConfigStore) : Prop where
  words : r.words = t.words
  content : ∀ x : Place, x.Valid → r.ports.space x.address = t.content x

/-! ## Addresses -/

variable {D : Devices} {p : PciPorts} {r : ConfigRun} {t : ConfigStore} {x y : Place} {c : ConfigCall}
  {bus slot function offset value : UInt32} {calls : List ConfigCall}

theorem Place.Valid.toNat_address (h : x.Valid) : x.address.toNat =
    2 ^ 31 + x.bus * 2 ^ 16 + x.slot * 2 ^ 11 + x.function * 2 ^ 8 + x.register * 4 := by
  obtain ⟨hbus, hslot, hfunction, hregister⟩ := h
  rw [Place.address, UInt32.toNat_ofNat']
  exact Nat.mod_eq_of_lt (by omega)

/-- **Places do not overlap.** -/
theorem Place.Valid.address_inj (hx : x.Valid) (hy : y.Valid) : x.address = y.address ↔ x = y := by
  refine ⟨fun h => ?_, fun h => congrArg Place.address h⟩
  have haddress := congrArg UInt32.toNat h
  rw [hx.toNat_address, hy.toNat_address] at haddress
  obtain ⟨hbus, hslot, hfunction, hregister⟩ := hx
  obtain ⟨hbus', hslot', hfunction', hregister'⟩ := hy
  obtain ⟨xb, xs, xf, xr⟩ := x
  obtain ⟨yb, ys, yf, yr⟩ := y
  simp only [Place.mk.injEq]
  simp only at *
  omega

/-- **The fields of an address** side by side. -/
theorem lor_fields {b s f r : ℕ} (hb : b < 256) (hs : s < 32) (hf : f < 8) (hr : r < 64) :
    b * 2 ^ 16 ||| s * 2 ^ 11 ||| f * 2 ^ 8 ||| r * 2 ^ 2 ||| 2 ^ 31 =
      2 ^ 31 + b * 2 ^ 16 + s * 2 ^ 11 + f * 2 ^ 8 + r * 4 := by
  have hslot : b * 2 ^ 16 ||| s * 2 ^ 11 = (b * 2 ^ 5 + s) * 2 ^ 11 := by
    rw [mul_two_pow_lor b (show s * 2 ^ 11 < 2 ^ 16 by omega)]
    ring
  have hfunction : (b * 2 ^ 5 + s) * 2 ^ 11 ||| f * 2 ^ 8 = (b * 2 ^ 8 + s * 2 ^ 3 + f) * 2 ^ 8 := by
    rw [mul_two_pow_lor _ (show f * 2 ^ 8 < 2 ^ 11 by omega)]
    ring
  have hregister : (b * 2 ^ 8 + s * 2 ^ 3 + f) * 2 ^ 8 ||| r * 2 ^ 2 =
      (b * 2 ^ 8 + s * 2 ^ 3 + f) * 2 ^ 8 + r * 2 ^ 2 :=
    mul_two_pow_lor _ (by omega)
  have henable : 1 * 2 ^ 31 ||| ((b * 2 ^ 8 + s * 2 ^ 3 + f) * 2 ^ 8 + r * 2 ^ 2) =
      1 * 2 ^ 31 + ((b * 2 ^ 8 + s * 2 ^ 3 + f) * 2 ^ 8 + r * 2 ^ 2) :=
    mul_two_pow_lor 1 (by omega)
  rw [hslot, hfunction, hregister, Nat.lor_comm, ← one_mul (2 ^ 31), henable]
  ring

/-- The address of a place that there is. -/
theorem configAddress_eq (h : (placeOf bus slot function offset).Valid) :
    configAddress bus slot function offset = (placeOf bus slot function offset).address := by
  obtain ⟨hbus, hslot, hfunction, -⟩ := id h
  change bus.toNat < 256 at hbus
  change slot.toNat < 32 at hslot
  change function.toNat < 8 at hfunction
  have hoffset : offset.toNat &&& 0xFC = offset.toNat % 256 / 4 * 2 ^ 2 :=
    land_field_mask (show 2 ≤ 8 by decide) offset.toNat
  have hshift (x : UInt32) (k : ℕ) (hk : k < 32) (hx : x.toNat * 2 ^ k < 2 ^ 32) :
      (x <<< UInt32.ofNat k).toNat = x.toNat * 2 ^ k := by
    rw [UInt32.toNat_shiftLeft, UInt32.toNat_ofNat', Nat.mod_eq_of_lt (show k < 2 ^ 32 by omega),
      Nat.mod_eq_of_lt hk, Nat.shiftLeft_eq, Nat.mod_eq_of_lt hx]
  have hbus' : (bus <<< 16).toNat = bus.toNat * 2 ^ 16 := hshift bus 16 (by decide) (by omega)
  have hslot' : (slot <<< 11).toNat = slot.toNat * 2 ^ 11 := hshift slot 11 (by decide) (by omega)
  have hfunction' : (function <<< 8).toNat = function.toNat * 2 ^ 8 := hshift function 8 (by decide) (by omega)
  rw [← UInt32.toNat_inj, h.toNat_address, configAddress, UInt32.toNat_or, UInt32.toNat_or, UInt32.toNat_or,
    UInt32.toNat_or, UInt32.toNat_and, hbus', hslot', hfunction']
  change _ ||| _ ||| _ ||| offset.toNat &&& 0xFC ||| 2 ^ 31 = _
  rw [hoffset, lor_fields hbus hslot hfunction (by omega)]
  rfl

/-! ## Runs -/

/-- A read through the ports is a read of the space, which stays as it is. -/
theorem readConfigWord_eq (p : PciPorts) : p.readConfigWord D bus slot function offset =
    (kernelReadPciConfigWord p.space bus slot function offset,
      { p with selected := configAddress bus slot function offset }) :=
  rfl

/-- What a write to a selected register does. -/
theorem writeConfigDword_eq (p : PciPorts) : p.writeConfigDword D bus slot function offset value =
    { selected := configAddress bus slot function offset
      space := Function.update p.space (configAddress bus slot function offset)
        (D (configAddress bus slot function offset) (p.space (configAddress bus slot function offset)) value) } :=
  rfl

/-- **Step lemma.** -/
theorem ConfigRun.Refines.step (h : r.Refines t) (hc : c.Valid) : (r.step D c).Refines (t.step D c) := by
  cases c with
  | readWord bus slot function offset =>
    have hplace := h.content _ hc
    rw [← configAddress_eq hc] at hplace
    rw [ConfigRun.step, ConfigStore.step, readConfigWord_eq]
    refine { words := ?_, content := h.content }
    rw [h.words, ← hplace]
    rfl
  | writeDword bus slot function offset value =>
    rw [ConfigRun.step, ConfigStore.step, writeConfigDword_eq]
    refine { words := h.words, content := fun x hx => ?_ }
    simp only [configAddress_eq hc, h.content _ hc]
    by_cases heq : x = placeOf bus slot function offset
    · rw [heq, Function.update_self, Function.update_self]
    · rw [Function.update_of_ne heq, Function.update_of_ne fun ha => heq ((hx.address_inj hc).mp ha)]
      exact h.content x hx

/-- **Run lemma.** -/
theorem ConfigRun.Refines.run (h : r.Refines t) (hcalls : ∀ c ∈ calls, c.Valid) :
    (Lib.run (ConfigRun.step D) r calls).Refines (Lib.run (ConfigStore.step D) t calls) := by
  induction calls generalizing r t with
  | nil => exact h
  | cons c calls ih =>
    obtain ⟨hc, hrest⟩ := List.forall_mem_cons.mp hcalls
    exact ih (h.step hc) hrest

/-- **The ports are a store**: whatever was selected before, calls about places that there are read and write a
register for each place. -/
theorem config_store (p : PciPorts) (hcalls : ∀ c ∈ calls, c.Valid) :
    (run (ConfigRun.step D) ⟨p, []⟩ calls).Refines
      (run (ConfigStore.step D) ⟨fun x => p.space x.address, []⟩ calls) :=
  ConfigRun.Refines.run { words := rfl, content := fun _ _ => rfl } hcalls

/-- The upper half of a register that has been written, in a space where all bits can be. -/
theorem register_written : (run (ConfigRun.step fun _ _ value => value) ⟨⟨0, fun _ => 0⟩, []⟩
    [.writeDword 1 2 3 4 0x12345678, .readWord 1 2 3 8, .readWord 1 2 3 6]).words = [0, 0x1234] := by
  have hplace (register : ℕ) (h : register < 64) : (⟨1, 2, 3, register⟩ : Place).Valid :=
    { bus := show 1 < 256 by decide, slot := show 2 < 32 by decide, function := show 3 < 8 by decide, register := h }
  have hvalid : ∀ c ∈ [ConfigCall.writeDword 1 2 3 4 0x12345678, .readWord 1 2 3 8, .readWord 1 2 3 6],
      c.Valid := by
    simp only [List.forall_mem_cons, List.not_mem_nil, false_imp_iff, implies_true, and_true]
    exact ⟨hplace 1 (by decide), hplace 2 (by decide), hplace 1 (by decide)⟩
  rw [(config_store ⟨0, fun _ => 0⟩ hvalid).words]
  decide

end Cutesugar.Kernel.Pci
