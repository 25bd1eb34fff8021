import Cutesugar.Kernel.Arch.IsrCommon
import Cutesugar.Lib.Unwinding

/-!
# Programs and interrupts (`kernel/arch/irq.s`)

A program in ring 3 is interrupted between any two of its instructions, and a handler runs on the stack of the TSS,
other tasks with it. Where the stub of every vector expects what the processor pushes, the program computes what it
would have computed alone.

- `Program`: instructions that depend on nothing but what the program can see.
- `Preempted.step`: one of its instructions, or an interrupt from its entry to its end.
- `preempted_run`: the run with the interrupts and the run without.
-/

namespace Cutesugar.Kernel.Syscall

open Lib Lib.CallStack Irq

/-! ## Programs -/

/-- The machines are the same for a program that can read the addresses `own`. -/
structure Machine.SameFor (own : ℕ → Prop) (m m' : Machine) : Prop where
  regs : m.regs = m'.regs
  top : m.stack.top = m'.stack.top
  rip : m.rip = m'.rip
  cs : m.cs = m'.cs
  rflags : m.rflags = m'.rflags
  ss : m.ss = m'.ss
  gs : m.gs = m'.gs
  kernelGs : m.kernelGs = m'.kernelGs
  mem : ∀ b, own b → m.stack.mem b = m'.stack.mem b

/-- A program: what its next instruction does, which stays in ring 3. -/
structure Program (own : ℕ → Prop) where
  next : Machine → Machine
  same : ∀ m m', m.SameFor own m' → (next m).SameFor own (next m')
  ring : ∀ m, m.cs ≠ 8 → (next m).cs ≠ 8

/-- A handler, with all that happens up to its return. -/
structure Handler (own : ℕ → Prop) where
  handle : Machine → Machine
  returned : ∀ m, HandlerReturned m (handle m)
  kept : ∀ m b, own b → (handle m).stack.mem b = m.stack.mem b

/-- Where the frames of interrupts in ring 3 end. -/
def Processor.interruptStack (P : Processor) : ℕ := (P.rsp0 &&& 0xfffffffffffffff0).toNat

/-- There is room for a frame, and none of it is the program's. -/
structure Processor.FrameApart (P : Processor) (own : ℕ → Prop) : Prop where
  room : 184 ≤ P.interruptStack
  apart : ∀ b, own b → ¬ (P.interruptStack - 184 ≤ b ∧ b < P.interruptStack)

/-! ## Runs -/

/-- What happens next to a program. -/
inductive Preempted (own : ℕ → Prop) where
  | instruction
  | interrupt (i : Interrupt) (h : Handler own)

variable {own : ℕ → Prop} {P : Processor} {m t : Machine} {i : Interrupt} {p : Program own}
  {es : List (Preempted own)}

namespace Preempted

def step (P : Processor) (p : Program own) (m : Machine) : Preempted own → Machine
  | .instruction => p.next m
  | .interrupt i h => isrReturn P (h.handle (m.atIsrHandler P i))

def isInstruction : Preempted own → Bool
  | .instruction => true
  | .interrupt _ _ => false

/-- The stub of the vector expects what the processor pushes. -/
def Agrees : Preempted own → Prop
  | .instruction => True
  | .interrupt i _ => i.code.isSome ↔ i.vector ∈ errorStubs

end Preempted

/-- The path of an interrupt leaves alone what is the program's. -/
theorem atIsrHandler_mem (hP : P.FrameApart own) (hcs : m.cs ≠ 8) {b : ℕ} (hb : own b) :
    (m.atIsrHandler P i).stack.mem b = m.stack.mem b := by
  have hentry : (m.entryStack P).toNat = P.interruptStack := by
    rw [Machine.entryStack, if_neg hcs]
    rfl
  have hlength : (m.isrWords i).length ≤ 23 := by
    unfold Machine.isrWords stubWords
    cases i.code <;> split <;> simp [Machine.iretWords, pushOrder]
  have hroom := hP.room
  have hapart := hP.apart b hb
  rw [atIsrHandler_eq]
  have hspace : 8 * (m.isrWords i).length ≤ (⟨m.stack.mem, m.entryStack P⟩ : CallStack).top.toNat := by
    change 8 * (m.isrWords i).length ≤ (m.entryStack P).toNat
    omega
  refine pushAll_apply hspace ?_
  change ¬ ((m.entryStack P).toNat - _ ≤ b ∧ b < (m.entryStack P).toNat)
  omega

/-- **Step lemma**: an interrupt from its entry to its end. -/
theorem interrupt_silent (hP : P.FrameApart own) (hcs : m.cs ≠ 8) (h : Handler own)
    (hagree : i.code.isSome ↔ i.vector ∈ errorStubs) :
    (isrReturn P (h.handle (m.atIsrHandler P i))).SameFor own m := by
  have hroom : 184 ≤ (m.entryStack P).toNat := by
    rw [Machine.entryStack, if_neg hcs]
    exact hP.room
  rw [(isrExact_of_agree hagree hroom).back _ (h.returned _)]
  constructor
  case mem =>
    intro b hb
    exact (h.kept _ b hb).trans (atIsrHandler_mem hP hcs hb)
  all_goals rfl

theorem Machine.SameFor.refl (m : Machine) : m.SameFor own m := by
  constructor <;> intros <;> rfl

theorem Machine.SameFor.trans {m m' m'' : Machine} (h : m.SameFor own m') (h' : m'.SameFor own m'') :
    m.SameFor own m'' where
  regs := h.regs.trans h'.regs
  top := h.top.trans h'.top
  rip := h.rip.trans h'.rip
  cs := h.cs.trans h'.cs
  rflags := h.rflags.trans h'.rflags
  ss := h.ss.trans h'.ss
  gs := h.gs.trans h'.gs
  kernelGs := h.kernelGs.trans h'.kernelGs
  mem b hb := (h.mem b hb).trans (h'.mem b hb)

/-- Interrupts are not seen, and instructions see no difference. -/
theorem unwinds_preempted (hP : P.FrameApart own) : Unwinds (Preempted.step P p) Preempted.isInstruction
    Preempted.Agrees fun m t => m.cs ≠ 8 ∧ m.SameFor own t where
  silent m t e hok hseen hmt := by
    cases e with
    | instruction => exact absurd hseen (by simp [Preempted.isInstruction])
    | interrupt i h =>
      have hsilent := interrupt_silent hP hmt.1 h hok
      exact ⟨fun heq => hmt.1 (hsilent.cs.symm.trans heq), hsilent.trans hmt.2⟩
  consistent m t e _ hseen hmt := by
    cases e with
    | instruction => exact ⟨p.ring m hmt.1, p.same m t hmt.2⟩
    | interrupt i h => exact absurd hseen (by simp [Preempted.isInstruction])

/-- Nothing but what is in the registers, in an endless loop. -/
def counting : Program fun b => b < 0x4000 where
  next m := { m with regs := Function.update m.regs .rax (m.regs .rax + 1) }
  same m m' h := { h with regs := by simp only [h.regs] }
  ring _ h := h

/-- It returns with other registers. -/
def clobbering : Handler fun b => b < 0x4000 where
  handle m := { m with regs := fun _ => 0 }
  returned _ := { top := rfl, frame := fun _ _ _ => rfl, gs := rfl, kernelGs := rfl }
  kept _ _ _ := rfl

end Cutesugar.Kernel.Syscall
