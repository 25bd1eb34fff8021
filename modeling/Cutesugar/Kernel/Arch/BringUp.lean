import Cutesugar.Kernel.Object.Processor
import Cutesugar.Lib.Endless

/-!
# Bringing up the processors (`kernel/arch/acpi.c`)

The loop of `HalInitializeProcessors` looks up the processors 2 to 9. One that is there is started through
the local APIC, and `wait` is cleared for it; then the loop waits for `wait`, whether there was one or not.
`ap_start` sets it, and it stays set until the next processor is started.

- `BringUp.step`: the loop and the started processors, in any order of their steps.
- `BringsUp`: the loop passes every index, and waits only for a processor that it has started.
- `bringsUp_iff`: it does so if the first index has a processor.
- `processors_brought_up_iff`: for the processors of the MADT, if there are two.
-/

namespace Cutesugar.Kernel

open Lib Libc

/-! ## Interrupts to other processors -/

/-- An interrupt that the local APIC sends: where to, and the low command register. -/
structure Ipi where
  destination : UInt32
  command : UInt32

/-- INIT, with the level that asserts it. -/
def Ipi.IsInit (p : Ipi) : Prop := (p.command >>> 8) &&& 7 = 5 ∧ (p.command >>> 14) &&& 1 = 1

/-- The startup interrupt. -/
def Ipi.IsStartup (p : Ipi) : Prop := (p.command >>> 8) &&& 7 = 6

instance (p : Ipi) : Decidable p.IsInit := inferInstanceAs (Decidable (_ ∧ _))

instance (p : Ipi) : Decidable p.IsStartup := inferInstanceAs (Decidable (_ = _))

/-- Where the loop stands: before the lookup, with a processor to be started, in front of `while(!wait)`, or
after a fault. -/
inductive BringUpPhase where
  | resolve
  | start (id : UInt32)
  | spin
  | fault (e : Fault)
  deriving DecidableEq

/-- The loop and the processors it started. `initialised` got INIT and wait for the startup interrupt,
`pending` got both and have not run `ap_start`. -/
structure BringUp where
  index : ℕ
  phase : BringUpPhase
  wait : Bool
  lapic : ℕ → UInt32
  initialised : List UInt32
  pending : List UInt32

variable {b : BringUp} {id keep value : UInt32}

/-- The processor that an interrupt is for. -/
def BringUp.deliver (b : BringUp) (p : Ipi) : BringUp :=
  if p.IsInit then { b with initialised := p.destination :: b.initialised }
  else if p.IsStartup ∧ p.destination ∈ b.initialised then
    { b with
      initialised := b.initialised.filter (· ≠ p.destination)
      pending := b.pending ++ [p.destination] }
  else b

/-- `write_lapic`. A write to the low command register sends the interrupt. -/
def writeLapic (b : BringUp) (offset : ℕ) (v : UInt32) : BringUp :=
  let b := { b with lapic := Function.update b.lapic offset v }
  if offset = 0x300 then b.deliver { destination := b.lapic 0x310 >>> 24, command := v } else b

/-- `write_lapic(0x310, (read_lapic(0x310) & 0x00ffffff) | (processor->id << 24))`. -/
def selectProcessor (b : BringUp) (id : UInt32) : BringUp :=
  writeLapic b 0x310 ((b.lapic 0x310 &&& (0x00ffffff : UInt32)) ||| (id <<< (24 : UInt32)))

/-- `write_lapic(0x300, (read_lapic(0x300) & keep) | value)`. -/
def commandProcessor (b : BringUp) (keep value : UInt32) : BringUp :=
  writeLapic b 0x300 ((b.lapic 0x300 &&& keep) ||| value)

/-- The writes for a processor that is there: INIT, its end, and the startup interrupt. -/
def startProcessor (b : BringUp) (id : UInt32) : BringUp :=
  let b := writeLapic b 0x280 0
  let b := selectProcessor b id
  -- INIT
  let b := commandProcessor b 0xfff00000 0x00C500
  let b := selectProcessor b id
  -- the end of INIT
  let b := commandProcessor b 0xfff00000 0x008500
  let b := writeLapic b 0x280 0
  let b := selectProcessor b id
  -- the startup interrupt, with the page at 0x8000
  commandProcessor b 0xfff0f800 0x000608

/-! ## The loop -/

/-- The next step of the loop, with the lookup of a processor's identifier. -/
def BringUp.bsp (lookup : ℕ → Except Fault (Option UInt32)) (b : BringUp) : BringUp :=
  match b.phase with
  | .resolve =>
    if b.index < 10 then
      match lookup b.index with
      | .ok (some id) => { b with phase := .start id, wait := false }
      -- `wait` is cleared only for a processor that is there
      | .ok none => { b with phase := .spin }
      | .error e => { b with phase := .fault e }
    else b
  | .start id => { startProcessor b id with phase := .spin }
  | .spin => if b.wait then { b with index := b.index + 1, phase := .resolve } else b
  | .fault _ => b

/-- Who takes a step: the processor with the loop, or a started one, which runs `ap_start`. -/
inductive BringUpEvent where
  | bsp
  | apStart (id : UInt32)
  deriving DecidableEq

def BringUp.step (lookup : ℕ → Except Fault (Option UInt32)) (b : BringUp) : BringUpEvent → BringUp
  | .bsp => b.bsp lookup
  | .apStart id => { b with wait := true, pending := b.pending.erase id }

/-- A processor runs `ap_start` after both interrupts. -/
def BringUp.Possible (b : BringUp) : BringUpEvent → Prop
  | .bsp => True
  | .apStart id => id ∈ b.pending

/-- The loop is about to begin. -/
def BringUp.begin (lapic : ℕ → UInt32) : BringUp where
  index := 2
  phase := .resolve
  wait := false
  lapic := lapic
  initialised := []
  pending := []

/-- The loop goes round `while(!wait)`. -/
def BringUp.Waiting (b : BringUp) : Prop := b.phase = .spin ∧ b.wait = false

variable {lookup : ℕ → Except Fault (Option UInt32)} {lapic : ℕ → UInt32} {es : ℕ → BringUpEvent}

/-- An endless run of the loop and the started processors. -/
abbrev BringUpRun (lookup : ℕ → Except Fault (Option UInt32)) (lapic : ℕ → UInt32) (es : ℕ → BringUpEvent) :
    Prop :=
  Guarded (BringUp.step lookup) BringUp.Possible (BringUp.begin lapic) es

/-- The loop goes on, and each processor that got both interrupts eventually runs `ap_start`. -/
structure FairRun (lookup : ℕ → Except Fault (Option UInt32)) (lapic : ℕ → UInt32) (es : ℕ → BringUpEvent) :
    Prop where
  bsp : ∀ n, ∃ m, n ≤ m ∧ es m = .bsp
  apStart : ∀ n, ∀ id ∈ (endless (BringUp.step lookup) (BringUp.begin lapic) es n).pending,
    ∃ m, n ≤ m ∧ es m = .apStart id

/-- **The bring-up finishes**: the loop passes every index in each fair run, and in each run it waits only for
the processor of its index, which it has started. -/
structure BringsUp (lookup : ℕ → Except Fault (Option UInt32)) (lapic : ℕ → UInt32) : Prop where
  passes : ∀ es, BringUpRun lookup lapic es → FairRun lookup lapic es →
    ∃ n, (endless (BringUp.step lookup) (BringUp.begin lapic) es n).index = 10
  waits : ∀ es, BringUpRun lookup lapic es → ∀ n,
    (endless (BringUp.step lookup) (BringUp.begin lapic) es n).Waiting →
      ∃ id, lookup (endless (BringUp.step lookup) (BringUp.begin lapic) es n).index = .ok (some id) ∧
        id ∈ (endless (BringUp.step lookup) (BringUp.begin lapic) es n).pending

/-! ## The interrupts of a start -/

/-- Bits that a command does not keep are those of its value. -/
theorem command_field {v mask shift : UInt32} (h : (keep >>> shift) &&& mask = 0) :
    (((v &&& keep) ||| value) >>> shift) &&& mask = (value >>> shift) &&& mask := by
  have hdistrib : ∀ x y z : UInt32, (x ||| y) &&& z = (x &&& z) ||| (y &&& z) := by
    intro x y z
    apply UInt32.toNat_inj.mp
    simp only [UInt32.toNat_and, UInt32.toNat_or, Nat.and_or_distrib_right]
  rw [UInt32.shiftRight_or, hdistrib, UInt32.shiftRight_and, UInt32.and_assoc, h, UInt32.and_zero,
    UInt32.zero_or]

/-- The processor that is selected. -/
def BringUp.selected (b : BringUp) : UInt32 := b.lapic 0x310 >>> 24

theorem selected_selectProcessor (b : BringUp) (id : UInt8) :
    (selectProcessor b id.toUInt32).selected = id.toUInt32 := by
  have hid : (id.toUInt32 <<< 24) >>> 24 = id.toUInt32 := by
    have hlt := id.toNat_lt
    apply UInt32.toNat_inj.mp
    rw [UInt32.toNat_shiftRight, UInt32.toNat_shiftLeft, UInt8.toNat_toUInt32, Nat.shiftLeft_eq,
      Nat.shiftRight_eq_div_pow]
    change id.toNat * 2 ^ 24 % 2 ^ 32 / 2 ^ 24 = id.toNat
    omega
  have hselected : (selectProcessor b id.toUInt32).selected =
      ((b.lapic 0x310 &&& (0x00ffffff : UInt32)) ||| (id.toUInt32 <<< (24 : UInt32))) >>> (24 : UInt32) := by
    rw [BringUp.selected, selectProcessor, writeLapic, if_neg (by decide)]
    exact congrArg (fun v : UInt32 => v >>> (24 : UInt32)) (Function.update_self 0x310 _ b.lapic)
  rw [hselected, UInt32.shiftRight_or, UInt32.shiftRight_and, hid]
  have hkeep : (0x00ffffff : UInt32) >>> 24 = 0 := by decide
  rw [hkeep, UInt32.and_zero, UInt32.zero_or]

/-- Registers are written, and nothing else happens. -/
structure OnlyLapic (b b' : BringUp) : Prop where
  index : b'.index = b.index
  wait : b'.wait = b.wait
  initialised : b'.initialised = b.initialised
  pending : b'.pending = b.pending

theorem OnlyLapic.trans {b' b'' : BringUp} (h : OnlyLapic b b') (h' : OnlyLapic b' b'') :
    OnlyLapic b b'' where
  index := h'.index.trans h.index
  wait := h'.wait.trans h.wait
  initialised := h'.initialised.trans h.initialised
  pending := h'.pending.trans h.pending

theorem onlyLapic_writeLapic {offset : ℕ} (h : offset ≠ 0x300) (b : BringUp) (v : UInt32) :
    OnlyLapic b (writeLapic b offset v) := by
  rw [writeLapic, if_neg h]
  exact { index := rfl, wait := rfl, initialised := rfl, pending := rfl }

/-- A command is an interrupt to the selected processor. -/
theorem commandProcessor_eq (b : BringUp) (keep value : UInt32) :
    commandProcessor b keep value =
      BringUp.deliver { b with lapic := Function.update b.lapic 0x300 ((b.lapic 0x300 &&& keep) ||| value) }
        { destination := b.selected, command := (b.lapic 0x300 &&& keep) ||| value } := by
  rw [commandProcessor, writeLapic, if_pos rfl]
  congr 1

/-- `0x00C500` is INIT. -/
theorem initialised_command (b : BringUp) :
    (commandProcessor b 0xfff00000 0x00C500).initialised = b.selected :: b.initialised ∧
      (commandProcessor b 0xfff00000 0x00C500).pending = b.pending ∧
      (commandProcessor b 0xfff00000 0x00C500).wait = b.wait ∧
      (commandProcessor b 0xfff00000 0x00C500).index = b.index := by
  rw [commandProcessor_eq, BringUp.deliver, if_pos]
  · exact ⟨rfl, rfl, rfl, rfl⟩
  · exact ⟨(command_field (by decide)).trans (by decide), (command_field (by decide)).trans (by decide)⟩

/-- `0x008500` ends it. -/
theorem onlyLapic_deassert (b : BringUp) : OnlyLapic b (commandProcessor b 0xfff00000 0x008500) := by
  have hinit : ¬ ((b.lapic 0x300 &&& 0xfff00000 ||| 0x008500) >>> 14) &&& 1 = 1 := by
    rw [command_field (by decide)]
    decide
  have hstartup : ¬ ((b.lapic 0x300 &&& 0xfff00000 ||| 0x008500) >>> 8) &&& 7 = 6 := by
    rw [command_field (by decide)]
    decide
  rw [commandProcessor_eq, BringUp.deliver, if_neg fun h => hinit h.2, if_neg fun h => hstartup h.1]
  exact { index := rfl, wait := rfl, initialised := rfl, pending := rfl }

/-- `0x000608` is the startup interrupt. -/
theorem pending_command (h : b.selected ∈ b.initialised) :
    (commandProcessor b 0xfff0f800 0x000608).pending = b.pending ++ [b.selected] ∧
      (commandProcessor b 0xfff0f800 0x000608).wait = b.wait ∧
      (commandProcessor b 0xfff0f800 0x000608).index = b.index := by
  have hmode : ((b.lapic 0x300 &&& 0xfff0f800 ||| 0x000608) >>> 8) &&& 7 = 6 :=
    (command_field (by decide)).trans (by decide)
  have hinit : ¬ ((b.lapic 0x300 &&& 0xfff0f800 ||| 0x000608) >>> 8) &&& 7 = 5 := by
    rw [hmode]
    decide
  rw [commandProcessor_eq, BringUp.deliver, if_neg fun h => hinit h.1, if_pos ⟨hmode, h⟩]
  exact ⟨rfl, rfl, rfl⟩

/-- **A start** leaves one more processor with both interrupts. -/
theorem startProcessor_spec (b : BringUp) (id : UInt8) :
    (startProcessor b id.toUInt32).pending = b.pending ++ [id.toUInt32] ∧
      (startProcessor b id.toUInt32).wait = b.wait ∧ (startProcessor b id.toUInt32).index = b.index := by
  -- the states behind INIT, behind its end, and in front of the startup interrupt
  obtain ⟨b₁, hb₁⟩ : ∃ b₁, b₁ = selectProcessor (writeLapic b 0x280 0) id.toUInt32 := ⟨_, rfl⟩
  obtain ⟨b₂, hb₂⟩ : ∃ b₂, b₂ = commandProcessor b₁ 0xfff00000 0x00C500 := ⟨_, rfl⟩
  obtain ⟨b₃, hb₃⟩ : ∃ b₃, b₃ = commandProcessor (selectProcessor b₂ id.toUInt32) 0xfff00000 0x008500 := ⟨_, rfl⟩
  obtain ⟨b₄, hb₄⟩ : ∃ b₄, b₄ = selectProcessor (writeLapic b₃ 0x280 0) id.toUInt32 := ⟨_, rfl⟩
  have hstart : startProcessor b id.toUInt32 = commandProcessor b₄ 0xfff0f800 0x000608 := by
    rw [hb₄, hb₃, hb₂, hb₁, startProcessor]
  have hselect (b : BringUp) : OnlyLapic b (selectProcessor b id.toUInt32) :=
    onlyLapic_writeLapic (by decide) b _
  have hfirst : OnlyLapic b b₁ := hb₁ ▸ (onlyLapic_writeLapic (by decide) b 0).trans (hselect _)
  have hmiddle : OnlyLapic b₂ b₃ := hb₃ ▸ (hselect b₂).trans (onlyLapic_deassert _)
  have hlast : OnlyLapic b₃ b₄ := hb₄ ▸ (onlyLapic_writeLapic (by decide) b₃ 0).trans (hselect _)
  have hbehind := hmiddle.trans hlast
  obtain ⟨hinitialised, hpending, hwait, hindex⟩ := initialised_command b₁
  rw [← hb₂] at hinitialised hpending hwait hindex
  have hselected : b₁.selected = id.toUInt32 := hb₁ ▸ selected_selectProcessor _ id
  have hselected' : b₄.selected = id.toUInt32 := hb₄ ▸ selected_selectProcessor _ id
  have hmem : b₄.selected ∈ b₄.initialised := by
    rw [hbehind.initialised, hinitialised, hselected, hselected']
    exact List.mem_cons_self ..
  obtain ⟨hpending', hwait', hindex'⟩ := pending_command hmem
  rw [hstart, hpending', hwait', hindex', hselected', hbehind.pending, hbehind.wait, hbehind.index, hpending,
    hwait, hindex, hfirst.pending, hfirst.wait, hfirst.index]
  exact ⟨rfl, rfl, rfl⟩

/-! ## The steps -/

/-- Every lookup of the loop returns, and the processors have identifiers of one byte. -/
def Resolved (lookup : ℕ → Except Fault (Option UInt32)) : Prop :=
  ∀ i, 2 ≤ i → i < 10 → lookup i = .ok none ∨ ∃ id : UInt8, lookup i = .ok (some id.toUInt32)

/-- The loop waits only for a processor that is pending, and between two processors `wait` is set. -/
structure BringUp.Inv (lookup : ℕ → Except Fault (Option UInt32)) (b : BringUp) : Prop where
  index_ge : 2 ≤ b.index
  index_le : b.index ≤ 10
  busy : b.phase ≠ .resolve → b.index < 10
  start : ∀ id, b.phase = .start id → lookup b.index = .ok (some id) ∧ ∃ byte : UInt8, id = byte.toUInt32
  waits : b.Waiting → ∃ id, lookup b.index = .ok (some id) ∧ id ∈ b.pending
  later : b.phase = .resolve → 2 < b.index → b.wait = true
  noFault : ∀ e, b.phase ≠ .fault e

theorem BringUp.Inv.begin (lookup : ℕ → Except Fault (Option UInt32)) (lapic : ℕ → UInt32) :
    (BringUp.begin lapic).Inv lookup where
  index_ge := le_rfl
  index_le := (by decide : 2 ≤ 10)
  busy h := absurd rfl h
  start _ h := nomatch h
  waits h := nomatch h.1
  later _ h := absurd h (lt_irrefl 2)
  noFault _ h := nomatch h

/-- **Step lemma** for the loop. -/
theorem BringUp.Inv.bsp (h : b.Inv lookup) (hlookup : Resolved lookup)
    (hfirst : ∃ id, lookup 2 = .ok (some id)) : (b.bsp lookup).Inv lookup := by
  unfold BringUp.bsp
  cases hphase : b.phase with
  | resolve =>
    dsimp only
    split_ifs with hlt
    · rcases hlookup b.index h.index_ge hlt with hnone | ⟨id, hsome⟩
      · rw [hnone]
        -- an index without a processor is not the first one, and `wait` is set
        have hwait : b.wait = true := by
          apply h.later hphase
          by_contra hle
          obtain ⟨id, hid⟩ := hfirst
          have hindex : b.index = 2 := le_antisymm (not_lt.mp hle) h.index_ge
          rw [hindex, hid] at hnone
          exact nomatch hnone
        exact
          { index_ge := h.index_ge
            index_le := h.index_le
            busy := fun _ => hlt
            start := fun _ h => nomatch h
            waits := fun hwaiting => absurd hwaiting.2 (by simp [hwait])
            later := fun h => nomatch h
            noFault := fun _ h => nomatch h }
      · rw [hsome]
        refine
          { index_ge := h.index_ge
            index_le := h.index_le
            busy := fun _ => hlt
            start := ?_
            waits := fun h => nomatch h.1
            later := fun h => nomatch h
            noFault := fun _ h => nomatch h }
        rintro id' heq
        obtain rfl := BringUpPhase.start.inj heq
        exact ⟨hsome, id, rfl⟩
    · exact h
  | start id =>
    obtain ⟨hlookup, byte, rfl⟩ := h.start id hphase
    obtain ⟨hpending, hwait, hindex⟩ := startProcessor_spec b byte
    have hlt : b.index < 10 := h.busy (by simp [hphase])
    refine
      { index_ge := ?_
        index_le := ?_
        busy := ?_
        start := fun _ h => nomatch h
        waits := ?_
        later := fun h => nomatch h
        noFault := fun _ h => nomatch h }
    · exact hindex.symm ▸ h.index_ge
    · exact hindex.symm ▸ h.index_le
    · exact fun _ => hindex.symm ▸ hlt
    · intro _
      refine ⟨byte.toUInt32, hindex.symm ▸ hlookup, ?_⟩
      change byte.toUInt32 ∈ (startProcessor b byte.toUInt32).pending
      rw [hpending]
      exact List.mem_append_right _ (List.mem_singleton_self _)
  | spin =>
    dsimp only
    split_ifs with hwait
    · have hlt : b.index < 10 := h.busy (by simp [hphase])
      exact
        { index_ge := Nat.le_succ_of_le h.index_ge
          index_le := hlt
          busy := fun h => absurd rfl h
          start := fun _ h => nomatch h
          waits := fun h => nomatch h.1
          later := fun _ _ => hwait
          noFault := fun _ h => nomatch h }
    · exact h
  | fault e => exact absurd hphase (h.noFault e)

/-- **Step lemma** for a started processor. -/
theorem BringUp.Inv.apStart (h : b.Inv lookup) (id : UInt32) :
    (b.step lookup (.apStart id)).Inv lookup where
  index_ge := h.index_ge
  index_le := h.index_le
  busy := h.busy
  start := h.start
  waits hwaiting := nomatch hwaiting.2
  later _ _ := rfl
  noFault := h.noFault

theorem BringUp.Inv.step (hlookup : Resolved lookup) (hfirst : ∃ id, lookup 2 = .ok (some id)) (b : BringUp)
    (e : BringUpEvent) (h : b.Inv lookup) (_ : b.Possible e) : (b.step lookup e).Inv lookup := by
  cases e with
  | bsp => exact h.bsp hlookup hfirst
  | apStart id => exact h.apStart id

/-! ## Progress -/

/-- How far the loop is from its end. -/
def BringUp.rank (b : BringUp) : ℕ :=
  4 * (10 - b.index) + match b.phase with
    | .resolve => 3
    | .start _ => 2
    | .spin => if b.wait then 0 else 1
    | .fault _ => 0

/-- The rank tells whether the loop waits. -/
theorem BringUp.rank_mod (b : BringUp) : b.rank % 4 = 1 ↔ b.Waiting := by
  unfold BringUp.rank BringUp.Waiting
  cases b.phase with
  | resolve => simp
  | start id => simp
  | spin => cases b.wait <;> simp
  | fault e => simp

/-- The rank tells the index. -/
theorem BringUp.rank_div (b : BringUp) : b.rank / 4 = 10 - b.index := by
  unfold BringUp.rank
  cases b.phase with
  | resolve => simp; omega
  | start id => simp; omega
  | spin =>
    cases b.wait with
    | false => simp; omega
    | true => simp
  | fault e => simp

/-- The loop makes progress unless it waits. -/
theorem BringUp.Inv.bsp_rank (h : b.Inv lookup) (hlookup : Resolved lookup) (hlt : b.index < 10)
    (hwaiting : ¬ b.Waiting) : (b.bsp lookup).rank < b.rank := by
  unfold BringUp.bsp
  cases hphase : b.phase with
  | resolve =>
    dsimp only
    rw [if_pos hlt]
    rcases hlookup b.index h.index_ge hlt with hnone | ⟨id, hsome⟩
    · rw [hnone]
      simp only [BringUp.rank, hphase]
      split_ifs <;> omega
    · rw [hsome]
      simp only [BringUp.rank, hphase]
      omega
  | start id =>
    obtain ⟨-, byte, rfl⟩ := h.start id hphase
    obtain ⟨-, hwait, hindex⟩ := startProcessor_spec b byte
    simp only [BringUp.rank, hphase, hindex]
    split_ifs <;> omega
  | spin =>
    have hwait : b.wait = true := by
      by_contra hwait
      exact hwaiting ⟨hphase, by simpa using hwait⟩
    dsimp only
    rw [if_pos hwait]
    simp only [BringUp.rank, hphase, hwait]
    omega
  | fault e => exact absurd hphase (h.noFault e)

/-- A processor that runs `ap_start` ends the waiting. -/
theorem BringUp.Waiting.apStart_rank (h : b.Waiting) (id : UInt32) :
    (b.step lookup (.apStart id)).rank < b.rank := by
  simp only [BringUp.rank, BringUp.step, h.1, h.2]
  simp

/-- Nothing leads back. -/
theorem BringUp.Inv.rank_le (hlookup : Resolved lookup) (b : BringUp) (e : BringUpEvent) (h : b.Inv lookup)
    (_ : b.Possible e) : (b.step lookup e).rank ≤ b.rank := by
  cases e with
  | apStart id =>
    simp only [BringUp.rank, BringUp.step]
    cases b.phase with
    | spin => simp
    | resolve => exact le_rfl
    | start id => exact le_rfl
    | fault e => exact le_rfl
  | bsp =>
    by_cases hwaiting : b.Waiting
    · have hsame : b.bsp lookup = b := by simp [BringUp.bsp, hwaiting.1, hwaiting.2]
      exact (congrArg BringUp.rank hsame).le
    · by_cases hlt : b.index < 10
      · exact (h.bsp_rank hlookup hlt hwaiting).le
      · have hphase : b.phase = .resolve := by
          by_contra hphase
          exact hlt (h.busy hphase)
        have hsame : b.bsp lookup = b := by simp [BringUp.bsp, hphase, hlt]
        exact (congrArg BringUp.rank hsame).le

/-! ## The bring-up -/

/-- **A processor at the first index** gets the loop going. -/
theorem bringsUp_of_first (hlookup : Resolved lookup) (hfirst : ∃ id, lookup 2 = .ok (some id))
    (lapic : ℕ → UInt32) : BringsUp lookup lapic := by
  have hinv (es : ℕ → BringUpEvent) (hrun : BringUpRun lookup lapic es) (n : ℕ) :
      (endless (BringUp.step lookup) (BringUp.begin lapic) es n).Inv lookup :=
    hrun.invariant (BringUp.Inv.begin lookup lapic) (BringUp.Inv.step hlookup hfirst) n
  refine { passes := ?_, waits := fun es hrun n => (hinv es hrun n).waits }
  intro es hrun hfair
  have hle {m n : ℕ} (hmn : m ≤ n) := hrun.rank_le (BringUp.Inv.begin lookup lapic)
    (BringUp.Inv.step hlookup hfirst) (BringUp.Inv.rank_le hlookup) hmn
  refine exists_of_descent BringUp.rank (P := fun b => b.index = 10) fun n => ?_
  by_cases hdone : (endless (BringUp.step lookup) (BringUp.begin lapic) es n).index = 10
  · exact .inl hdone
  right
  -- the step that helps: that of the processor waited for, or the loop's own
  by_cases hwaiting : (endless (BringUp.step lookup) (BringUp.begin lapic) es n).Waiting
  · obtain ⟨id, -, hpending⟩ := (hinv es hrun n).waits hwaiting
    obtain ⟨m, hnm, hm⟩ := hfair.apStart n id hpending
    rcases (hle hnm).lt_or_eq with hlt | heq
    · exact ⟨m, hlt⟩
    · have hstill : (endless (BringUp.step lookup) (BringUp.begin lapic) es m).Waiting := by
        rw [← BringUp.rank_mod, heq, BringUp.rank_mod]
        exact hwaiting
      refine ⟨m + 1, ?_⟩
      rw [← heq, endless, hm]
      exact hstill.apStart_rank id
  · obtain ⟨m, hnm, hm⟩ := hfair.bsp n
    rcases (hle hnm).lt_or_eq with hlt | heq
    · exact ⟨m, hlt⟩
    · have hstill : ¬ (endless (BringUp.step lookup) (BringUp.begin lapic) es m).Waiting := by
        rw [← BringUp.rank_mod, heq, BringUp.rank_mod]
        exact hwaiting
      have hindex := congrArg (· / 4) heq
      simp only [BringUp.rank_div] at hindex
      have hbelow := (hinv es hrun n).index_le
      have hlt : (endless (BringUp.step lookup) (BringUp.begin lapic) es m).index < 10 := by omega
      refine ⟨m + 1, ?_⟩
      rw [← heq, endless, hm]
      exact (hinv es hrun m).bsp_rank hlookup hlt hstill

/-- Without one, the loop waits for a processor that it has not started. -/
theorem not_bringsUp_of_none (h : lookup 2 = .ok none) (lapic : ℕ → UInt32) : ¬ BringsUp lookup lapic := by
  intro hbrings
  -- no processor is started, and the loop goes on alone
  have hstate (n : ℕ) : endless (BringUp.step lookup) (BringUp.begin lapic) (fun _ => .bsp) (n + 1) =
      { BringUp.begin lapic with phase := .spin } := by
    induction n with
    | zero => simp [endless, BringUp.step, BringUp.bsp, BringUp.begin, h]
    | succ n ih =>
      rw [endless, ih]
      rfl
  have hrun : BringUpRun lookup lapic fun _ => .bsp := fun _ => trivial
  obtain ⟨id, hid, -⟩ := hbrings.waits _ hrun 1 (by rw [hstate]; exact ⟨rfl, rfl⟩)
  rw [hstate] at hid
  exact nomatch h.symm.trans hid

/-- **The bring-up finishes** exactly if the first index has a processor. -/
theorem bringsUp_iff (hlookup : Resolved lookup) (lapic : ℕ → UInt32) :
    BringsUp lookup lapic ↔ ∃ id, lookup 2 = .ok (some id) := by
  constructor
  · intro h
    rcases hlookup 2 le_rfl (by decide) with hnone | ⟨id, hsome⟩
    · exact absurd h (not_bringsUp_of_none hnone lapic)
    · exact ⟨_, hsome⟩
  · exact fun hfirst => bringsUp_of_first hlookup hfirst lapic

/-! ## The processors of the MADT -/

/-- The lookup of the loop: the identifier of the processor with an index, if there is one. -/
def lookupProcessor (fuel : ℕ) (k : State) (i : ℕ) : Except Fault (Option UInt32) :=
  (resolveProcessor fuel k i).map fun o => if o = 0 then none else some (processorId k o)

/-- The calls for processors with these identifiers. -/
def processorCalls (ids : List UInt8) : List ProcessorCall := ids.map fun id => ⟨id.toUInt32, 0⟩

variable {k : State} {s : ProcessorState} {devices fuel i : ℕ} {ids : List UInt8} {objs : List ℕ}

/-- The lookup finds the processors in the order of their registration, up to the ninth. -/
theorem lookupProcessor_eq (h : ProcessorsRegistered k devices s (processorCalls ids) objs)
    (hstart : DevicesStart k devices) (hcheck : objGetRootObject fuel k = some k.rootObject)
    (hfuel : 10 ≤ fuel) (hi : 1 ≤ i) (hi' : i ≤ 9) :
    lookupProcessor fuel s.kernel i = .ok ((ids[i - 1]?).map UInt8.toUInt32) := by
  rw [lookupProcessor, h.resolveProcessor hstart hcheck hfuel hi hi']
  have hlen : objs.length = ids.length := by
    rw [h.length, processorCalls, List.length_map]
  rcases hid : ids[i - 1]? with _ | id
  · have hnone : objs[i - 1]? = none := by
      rw [List.getElem?_eq_none_iff] at hid ⊢
      omega
    rw [hnone]
    rfl
  · have hlt : i - 1 < objs.length := hlen ▸ (List.getElem?_eq_some_iff.mp hid).1
    have hcall : (processorCalls ids)[i - 1]? = some ⟨id.toUInt32, 0⟩ := by
      rw [processorCalls, List.getElem?_map, hid]
      rfl
    have hobject := h.object (i - 1) objs[i - 1] _ (List.getElem?_eq_getElem hlt) hcall
    have hnonnull := hobject.taken.nonnull (hstart.blocks.of_eq h.blocks)
    rw [List.getElem?_eq_getElem hlt]
    change Except.ok (if objs[i - 1] = 0 then none else some (processorId s.kernel objs[i - 1])) = _
    rw [if_neg hnonnull, hobject.id]
    rfl

/-- **The processors of the MADT** are all registered, and the bring-up finishes exactly if there are two. -/
theorem processors_brought_up_iff (hstart : DevicesStart k devices) (behind : List.Vector UInt8 18)
    (lapic : ℕ → UInt32) (ids : List UInt8) :
    ∃ fuel₀, ∀ fuel, fuel₀ ≤ fuel →
      ∃ s, registerProcessors fuel behind devices { kernel := k, count := 0 } (processorCalls ids) = some s ∧
        (BringsUp (lookupProcessor fuel s.kernel) lapic ↔ 2 ≤ ids.length) := by
  obtain ⟨fuel₁, hcheck⟩ := hstart.privileged.objGetRootObject
  refine ⟨max fuel₁ (max 10 ids.length), fun fuel hfuel => ?_⟩
  have hrounds : ([] ++ processorCalls ids).length ≤ fuel := by
    rw [List.nil_append, processorCalls, List.length_map]
    omega
  obtain ⟨s, objs, hregister, hregistered⟩ := hstart.registered.exists_register hstart behind hrounds
  rw [List.nil_append] at hregistered
  have hlookup {i : ℕ} (hi : 1 ≤ i) (hi' : i ≤ 9) :=
    lookupProcessor_eq hregistered hstart (hcheck fuel (by omega)) (by omega) hi hi'
  have hresolved : Resolved (lookupProcessor fuel s.kernel) := by
    intro i hi hi'
    rw [hlookup (by omega) (by omega)]
    cases ids[i - 1]? with
    | none => exact .inl rfl
    | some id => exact .inr ⟨id, rfl⟩
  refine ⟨s, hregister, ?_⟩
  rw [bringsUp_iff hresolved, hlookup (by decide) (by decide)]
  constructor
  · rintro ⟨id, hid⟩
    obtain ⟨byte, hbyte, -⟩ := Option.map_eq_some_iff.mp (Except.ok.inj hid)
    exact (List.getElem?_eq_some_iff.mp hbyte).1
  · intro hlen
    exact ⟨_, by rw [List.getElem?_eq_getElem hlen]; rfl⟩

/-- Two processors. -/
theorem two_processors_brought_up :
    DevicesStart bootDevices 0x200000 ∧
      ∃ fuel₀, ∀ fuel, fuel₀ ≤ fuel →
        ∃ s, registerProcessors fuel (List.Vector.replicate 18 0) 0x200000 { kernel := bootDevices, count := 0 }
            (processorCalls [0, 1]) = some s ∧
          (BringsUp (lookupProcessor fuel s.kernel) (fun _ => 0) ↔ 2 ≤ [(0 : UInt8), 1].length) :=
  ⟨bootDevices_start, processors_brought_up_iff bootDevices_start _ _ _⟩

/-- With one processor, the loop waits for one that is not there. -/
theorem one_processor_waits :
    ∃ s, registerProcessors 10 (List.Vector.replicate 18 0) 0x200000 { kernel := bootDevices, count := 0 }
        (processorCalls [0]) = some s ∧ ¬ BringsUp (lookupProcessor 10 s.kernel) fun _ => 0 := by
  have hrounds : ([] ++ processorCalls [0]).length ≤ 10 := by decide
  obtain ⟨s, objs, hregister, hregistered⟩ :=
    bootDevices_start.registered.exists_register bootDevices_start (List.Vector.replicate 18 0) hrounds
  refine ⟨s, hregister, not_bringsUp_of_none ?_ _⟩
  exact lookupProcessor_eq hregistered bootDevices_start rfl le_rfl (by decide) (by decide)

end Cutesugar.Kernel
