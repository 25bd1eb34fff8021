import Cutesugar.Lib.Bits
import Mathlib.Data.List.Range
import Mathlib.Logic.Function.Basic
import Mathlib.Tactic.SplitIfs

/-!
# Interrupt gates (`kernel/arch/idt.c`)

`HalInitializeInterrupts` writes the gates of the 32 exceptions, of the 16 interrupts behind them and of system
calls. A gate has the address of its handler in three parts.

- `setIdtEntry`, `halInitializeInterrupts`: the functions.
- `IDTEntry.gate`: what the processor makes of an entry.
- `gates_exact`: the gates of all 256 vectors.
-/

namespace Cutesugar.Kernel

open Lib

/-! ## Entries -/

/-- `struct IDTEntry`. -/
structure IDTEntry where
  offsetLow : UInt16
  segmentSelector : UInt16
  ist : UInt8
  type : UInt8
  offsetMiddle : UInt16
  offsetHigh : UInt32
  reserved : UInt32
  deriving DecidableEq

/-- `idt`. -/
abbrev Idt := ℕ → IDTEntry

/-- What `set_idt_entry` makes of an entry. -/
def IDTEntry.set (e : IDTEntry) (handler : UInt64) (segmentSelector : UInt16) (type ist : UInt8) : IDTEntry :=
  { e with
    offsetLow := (handler &&& 0xFFFF).toUInt16
    offsetMiddle := ((handler >>> 16) &&& 0xFFFF).toUInt16
    offsetHigh := ((handler >>> 32) &&& 0xFFFFFFFF).toUInt32
    segmentSelector := segmentSelector
    type := type
    ist := ist }

/-- `set_idt_entry`. -/
def setIdtEntry (idt : Idt) (index : ℕ) (handler : UInt64) (segmentSelector : UInt16) (type ist : UInt8) : Idt :=
  Function.update idt index ((idt index).set handler segmentSelector type ist)

/-- The addresses of the stubs of `irq.s`. -/
structure Stubs where
  isr : ℕ → UInt64
  irq : ℕ → UInt64
  syscallHandler : UInt64

/-- `idt` before anything is written to it. -/
def zeroIdt : Idt := fun _ =>
  { offsetLow := 0, segmentSelector := 0, ist := 0, type := 0, offsetMiddle := 0, offsetHigh := 0, reserved := 0 }

/-- `HalInitializeInterrupts`. -/
def halInitializeInterrupts (P : Stubs) : Idt :=
  let idt := (List.range 32).foldl (fun idt i => setIdtEntry idt i (P.isr i) 0x08 0x8E 0) zeroIdt
  let idt := (List.range 16).foldl (fun idt i => setIdtEntry idt (32 + i) (P.irq i) 0x08 0x8E 0) idt
  -- ring 3 may use the gate of system calls
  setIdtEntry idt 128 P.syscallHandler 0x08 (0x8E ||| 0x60) 0

/-! ## Gates -/

/-- What the processor makes of an entry that is present: where it goes, on which stack, which ring may use it
with `int`, and whether interrupts are disabled on the way. -/
structure Gate where
  handler : UInt64
  segmentSelector : UInt16
  ist : UInt8
  ring : UInt8
  masks : Bool
  deriving DecidableEq

/-- The gate of an entry. Type 14 disables interrupts, and 15 does not. -/
def IDTEntry.gate (e : IDTEntry) : Option Gate :=
  if e.type &&& 0x80 = 0 then none
  else some
    { handler := e.offsetLow.toUInt64 ||| e.offsetMiddle.toUInt64 <<< 16 ||| e.offsetHigh.toUInt64 <<< 32
      segmentSelector := e.segmentSelector
      ist := e.ist &&& 7
      ring := (e.type >>> 5) &&& 3
      masks := e.type &&& 0xF = 0xE }

/-- The gate that is meant for a vector. -/
def gateFor (P : Stubs) (vector : ℕ) : Option Gate :=
  if vector < 32 then some { handler := P.isr vector, segmentSelector := 8, ist := 0, ring := 0, masks := true }
  else if vector < 48 then
    some { handler := P.irq (vector - 32), segmentSelector := 8, ist := 0, ring := 0, masks := true }
  else if vector = 128 then
    some { handler := P.syscallHandler, segmentSelector := 8, ist := 0, ring := 3, masks := true }
  else none

variable {handler : UInt64} {segmentSelector : UInt16} {type ist : UInt8} {e : IDTEntry}

theorem toNat_low16 (x : UInt64) : (x &&& 0xFFFF).toUInt16.toUInt64.toNat = x.toNat % 2 ^ 16 := by
  have hmask : (x &&& 0xFFFF).toNat = x.toNat % 2 ^ 16 := by
    rw [UInt64.toNat_and]
    exact Nat.and_two_pow_sub_one_eq_mod x.toNat 16
  rw [UInt16.toNat_toUInt64, UInt64.toNat_toUInt16, hmask, Nat.mod_mod]

theorem toNat_low32 (x : UInt64) : (x &&& 0xFFFFFFFF).toUInt32.toUInt64.toNat = x.toNat % 2 ^ 32 := by
  have hmask : (x &&& 0xFFFFFFFF).toNat = x.toNat % 2 ^ 32 := by
    rw [UInt64.toNat_and]
    exact Nat.and_two_pow_sub_one_eq_mod x.toNat 32
  rw [UInt32.toNat_toUInt64, UInt64.toNat_toUInt32, hmask, Nat.mod_mod]

/-- **An address survives** being cut into the three parts of an entry. -/
theorem offset_set : (e.set handler segmentSelector type ist).offsetLow.toUInt64 |||
    (e.set handler segmentSelector type ist).offsetMiddle.toUInt64 <<< 16 |||
      (e.set handler segmentSelector type ist).offsetHigh.toUInt64 <<< 32 = handler := by
  apply UInt64.toNat_inj.mp
  simp only [IDTEntry.set, UInt64.toNat_or, UInt64.toNat_shiftLeft, toNat_low16, toNat_low32,
    UInt64.toNat_shiftRight]
  exact lor_three_fields handler.toNat_lt

/-- The gate that `set_idt_entry` writes. -/
theorem gate_set (hpresent : type &&& 0x80 ≠ 0) : (e.set handler segmentSelector type ist).gate = some
    { handler := handler
      segmentSelector := segmentSelector
      ist := ist &&& 7
      ring := (type >>> 5) &&& 3
      masks := type &&& 0xF = 0xE } := by
  rw [IDTEntry.gate, offset_set]
  exact if_neg hpresent

/-- A loop over `set_idt_entry`. -/
theorem foldl_setIdtEntry (idt : Idt) (vector base n : ℕ) (f : ℕ → UInt64) (segmentSelector : UInt16)
    (type ist : UInt8) : (List.range n).foldl
    (fun idt i => setIdtEntry idt (base + i) (f i) segmentSelector type ist) idt vector =
      if base ≤ vector ∧ vector < base + n then
        (idt vector).set (f (vector - base)) segmentSelector type ist
      else idt vector := by
  induction n with
  | zero => rw [if_neg (by omega)]; rfl
  | succ n ih =>
    rw [List.range_succ, List.foldl_append, List.foldl_cons, List.foldl_nil, setIdtEntry]
    rcases eq_or_ne vector (base + n) with rfl | hne
    · rw [Function.update_self, ih, if_neg (by omega), if_pos (by omega), Nat.add_sub_cancel_left]
    · rw [Function.update_of_ne hne, ih]
      exact if_congr (by omega) rfl rfl

/-- **The gates** of all vectors are those that are meant: exceptions and interrupts go to their stubs, ring 3
may only use that of system calls, all of them disable interrupts, and the others are absent. -/
theorem gates_exact (P : Stubs) (vector : ℕ) : (halInitializeInterrupts P vector).gate = gateFor P vector := by
  have hisr : (List.range 32).foldl (fun idt i => setIdtEntry idt i (P.isr i) 0x08 0x8E 0) zeroIdt vector =
      if vector < 32 then (zeroIdt vector).set (P.isr vector) 0x08 0x8E 0 else zeroIdt vector := by
    have hloop := foldl_setIdtEntry zeroIdt vector 0 32 P.isr 0x08 0x8E 0
    simpa only [Nat.zero_add, Nat.zero_le, true_and, Nat.sub_zero] using hloop
  unfold halInitializeInterrupts gateFor
  rcases eq_or_ne vector 128 with rfl | hne
  · rw [setIdtEntry, Function.update_self]
    exact gate_set (by decide)
  · rw [setIdtEntry, Function.update_of_ne hne, foldl_setIdtEntry, hisr]
    rcases Nat.lt_or_ge vector 32 with hexception | hge
    · rw [if_neg (by omega), if_pos hexception, if_pos hexception]
      exact gate_set (by decide)
    · rcases Nat.lt_or_ge vector 48 with hirq | hgt
      · rw [if_pos (by omega), if_neg (by omega), if_neg (by omega), if_pos hirq]
        exact gate_set (by decide)
      · -- the entry is still zero
        rw [if_neg (by omega), if_neg (by omega), if_neg (by omega), if_neg (by omega), if_neg hne]
        exact if_pos UInt8.zero_and

end Cutesugar.Kernel
