import Cutesugar.Kernel.Arch.Syscall

/-!
# The path of an interrupt (`kernel/arch/irq.s`)

The processor pushes what it needs to come back, and with some exceptions a code. The stub of the vector pushes
its number, behind a zero where it expects no code, and `isr_common` the registers, as a
`struct x86Registers`. The path changes `gs` on both ways unless the frame says that ring 0 was interrupted.

- `Machine.atIsrHandler`, `isrReturn`: the path up to the call of `isr_handler`, and behind it.
- `IsrExact`: the handler sees what was interrupted, and it goes on as if nothing had happened.
- `isr_exact_iff`: the vectors for which this holds.
-/

namespace Cutesugar.Kernel.Syscall

open Lib Lib.CallStack Irq

/-! ## The path -/

/-- An interrupt, with the code that the processor pushes with it, if it does. -/
structure Interrupt where
  vector : UInt64
  code : Option UInt64

/-- The vectors whose stub is made by `ISR_ERR`. -/
def errorStubs : List UInt64 := [8, 10, 11, 12, 13, 14]

/-- `_isr0` to `_isr31` and `_irq0` to `_irq15`. -/
def stub (vector : UInt64) : List Simple :=
  if vector ∈ errorStubs then [.pushImmediate vector] else [.pushImmediate 0, .pushImmediate vector]

/-- What the processor does, aligning the stack first. -/
def Machine.interrupted (P : Processor) (m : Machine) (i : Interrupt) : Machine :=
  { m with
    stack := CallStack.pushAll ⟨m.stack.mem, m.entryStack P⟩ (m.iretWords ++ i.code.toList)
    rip := P.idt i.vector.toNat
    cs := 8
    rflags := m.rflags &&& 0xfffffffffffffcff
    ss := if m.cs = 8 then m.ss else 0 }

/-- `cmpq $8, 24(%rsp)`, and `swapgs` unless they are equal. -/
def Machine.swapUnlessKernel (m : Machine) : Machine :=
  if word m.stack.mem (m.stack.top.toNat + 24) = 8 then m else Simple.swapgs.effect m

/-- The stub and `isr_common` up to the call of `isr_handler`. -/
def Machine.atIsrHandler (P : Processor) (m : Machine) (i : Interrupt) : Machine :=
  (pushOrder.map Simple.pushq ++ [Simple.movRsp .rdi]).foldl Simple.effect
    ((stub i.vector).foldl Simple.effect (m.interrupted P i)).swapUnlessKernel

/-- `isr_common` behind the call. -/
def isrReturn (P : Processor) (m : Machine) : Machine :=
  Instruction.iretq.exec P ((Simple.addRsp 16).effect
    ((popOrder.map Simple.popq).foldl Simple.effect m).swapUnlessKernel)

/-! ## What it should do -/

/-- The field that the handler should see. -/
def Machine.isrField (m : Machine) (i : Interrupt) : Field → UInt64
  | .interruptNo => i.vector
  | .errorCode => i.code.getD 0
  | f => m.field f

/-- The handler is back: the stack pointer, the frame and the bases of `gs` are as they were at the call. -/
structure HandlerReturned (m m' : Machine) : Prop where
  top : m'.stack.top = m.stack.top
  frame : ∀ b, m.stack.top.toNat ≤ b → b < m.stack.top.toNat + 176 → m'.stack.mem b = m.stack.mem b
  gs : m'.gs = m.gs
  kernelGs : m'.kernelGs = m.kernelGs

/-- **An interrupt is invisible** to what it interrupts: the handler gets the frame of it, with the `gs` of the
kernel if it comes from ring 3, and once the handler is back everything is as before but for the memory. -/
structure IsrExact (P : Processor) (m : Machine) (i : Interrupt) : Prop where
  frame : Framed (m.atIsrHandler P i).stack (m.isrField i)
  regs : (m.atIsrHandler P i).regs .rdi = (m.atIsrHandler P i).stack.top
  gs : (m.atIsrHandler P i).gs = if m.cs = 8 then m.gs else m.kernelGs
  back : ∀ m', HandlerReturned (m.atIsrHandler P i) m' →
    isrReturn P m' = { m with stack := ⟨m'.stack.mem, m.stack.top⟩, calls := m'.calls }

variable {P : Processor} {m m' : Machine} {i : Interrupt} {vector : UInt64} {ws : List UInt64}

/-! ## Entry -/

/-- What a stub pushes. -/
def stubWords (vector : UInt64) : List UInt64 := if vector ∈ errorStubs then [vector] else [0, vector]

theorem foldl_stub (m : Machine) (vector : UInt64) : (stub vector).foldl Simple.effect m =
    { m with stack := m.stack.pushAll (stubWords vector) } := by
  unfold stub stubWords
  split <;> rfl

/-- The comparison only decides about `gs`. -/
theorem swapUnlessKernel_eq (m : Machine) : m.swapUnlessKernel =
    { m with
      gs := if word m.stack.mem (m.stack.top.toNat + 24) = 8 then m.gs else m.kernelGs
      kernelGs := if word m.stack.mem (m.stack.top.toNat + 24) = 8 then m.kernelGs else m.gs } := by
  unfold Machine.swapUnlessKernel
  split <;> rfl

/-- All words from the processor's on, in the order in which they are pushed. -/
def Machine.isrWords (m : Machine) (i : Interrupt) : List UInt64 :=
  m.iretWords ++ i.code.toList ++ stubWords i.vector ++ pushOrder.map m.regs

/-- The stack at the comparison of the entry. -/
def Machine.atComparison (P : Processor) (m : Machine) (i : Interrupt) : CallStack :=
  CallStack.pushAll ⟨m.stack.mem, m.entryStack P⟩ (m.iretWords ++ i.code.toList ++ stubWords i.vector)

theorem atIsrHandler_eq (P : Processor) (m : Machine) (i : Interrupt) : m.atIsrHandler P i =
    { m.interrupted P i with
      stack := CallStack.pushAll ⟨m.stack.mem, m.entryStack P⟩ (m.isrWords i)
      regs := Function.update m.regs .rdi (CallStack.pushAll ⟨m.stack.mem, m.entryStack P⟩ (m.isrWords i)).top
      gs := if word (m.atComparison P i).mem ((m.atComparison P i).top.toNat + 24) = 8 then m.gs
        else m.kernelGs
      kernelGs := if word (m.atComparison P i).mem ((m.atComparison P i).top.toNat + 24) = 8 then m.kernelGs
        else m.gs } := by
  unfold Machine.atIsrHandler
  rw [List.foldl_append, foldl_pushq, swapUnlessKernel_eq, foldl_stub]
  simp only [Machine.interrupted, Machine.isrWords, Machine.atComparison, pushAll_append, List.foldl_cons,
    List.foldl_nil, Simple.effect]

/-! ## The frame -/

/-- The words of the path, the last one pushed first. -/
theorem isrWords_stacked (i : Interrupt) (hroom : 184 ≤ (m.entryStack P).toNat) :
    (m.atIsrHandler P i).stack.Stacked (m.isrWords i).reverse := by
  have hlength : (m.isrWords i).length ≤ 23 := by
    unfold Machine.isrWords stubWords
    cases i.code <;> split <;> simp [Machine.iretWords, pushOrder]
  rw [atIsrHandler_eq]
  have hspace : 8 * (m.isrWords i).length ≤ (⟨m.stack.mem, m.entryStack P⟩ : CallStack).top.toNat := by
    change 8 * (m.isrWords i).length ≤ (m.entryStack P).toNat
    omega
  have hpushed := (stacked_nil ⟨m.stack.mem, m.entryStack P⟩).pushAll hspace
  rwa [List.append_nil] at hpushed

/-- **The path mirrors** `struct x86Registers` if the stub and the processor agree about the code. -/
theorem isrWords_mirror (m : Machine) (h : i.code.isSome ↔ i.vector ∈ errorStubs) :
    (m.isrWords i).reverse = x86Registers.map (m.isrField i) := by
  obtain ⟨vector, code⟩ := i
  unfold Machine.isrWords stubWords
  cases code with
  | none =>
    rw [if_neg fun hmem => by simpa using h.mpr hmem]
    rfl
  | some e =>
    rw [if_pos (h.mp rfl)]
    rfl

/-- The comparison of the entry reads the selector that was interrupted. -/
theorem atComparison_cs (h : i.code.isSome ↔ i.vector ∈ errorStubs) (hroom : 184 ≤ (m.entryStack P).toNat) :
    word (m.atComparison P i).mem ((m.atComparison P i).top.toNat + 24) = m.cs := by
  have hcode : i.code.toList ++ stubWords i.vector = [i.code.getD 0, i.vector] := by
    obtain ⟨vector, code⟩ := i
    unfold stubWords
    cases code with
    | none =>
      rw [if_neg fun hmem => by simpa using h.mpr hmem]
      rfl
    | some e =>
      rw [if_pos (h.mp rfl)]
      rfl
  have hspace : 8 * (m.iretWords ++ [i.code.getD 0, i.vector]).length ≤
      (⟨m.stack.mem, m.entryStack P⟩ : CallStack).top.toNat := by
    change 8 * 7 ≤ (m.entryStack P).toNat
    omega
  have hpushed := (stacked_nil ⟨m.stack.mem, m.entryStack P⟩).pushAll hspace
  rw [Machine.atComparison, List.append_assoc, hcode]
  exact hpushed.2 3 m.cs rfl

/-! ## The way back -/

/-- What is popped and compared behind the call. -/
theorem isrReturn_eq (hs : m'.stack.Stacked (x86Registers.map (m.isrField i))) :
    isrReturn P m' =
      { m with
        stack := ⟨m'.stack.mem, m.stack.top⟩
        gs := if m.cs = 8 then m'.gs else m'.kernelGs
        kernelGs := if m.cs = 8 then m'.kernelGs else m'.gs
        calls := m'.calls } := by
  have hsplit : x86Registers.map (m.isrField i) = popOrder.map m.regs ++
      [i.vector, i.code.getD 0, m.rip, m.cs, m.rflags, m.stack.top, m.ss] := rfl
  rw [hsplit] at hs
  obtain ⟨top, hrest, hpopped⟩ := foldl_popq hs
  have hcs : word m'.stack.mem (top.toNat + 24) = m.cs := hrest.2 3 m.cs rfl
  have hframe : Stacked ⟨m'.stack.mem, top + 8 + 8⟩ [m.rip, m.cs, m.rflags, m.stack.top, m.ss] :=
    hrest.tail.tail
  have htop : top + 16 = top + 8 + 8 := by
    rw [UInt64.add_assoc]
    rfl
  have hregs : (fun r => if r ∈ popOrder then m.regs r else m'.regs r) = m.regs := by
    funext r
    rw [if_pos]
    cases r <;> decide
  have hword (k : ℕ) (v : UInt64) (hk : [m.rip, m.cs, m.rflags, m.stack.top, m.ss][k]? = some v) :
      word m'.stack.mem ((top + 16).toNat + 8 * k) = v := by
    rw [htop]
    exact hframe.2 k v hk
  rw [isrReturn, hpopped, swapUnlessKernel_eq]
  simp only [Simple.effect, Instruction.exec, hcs, hregs, hword 0 _ rfl, hword 1 _ rfl, hword 2 _ rfl,
    hword 3 _ rfl, hword 4 _ rfl]

/-- **Agreement is enough.** -/
theorem isrExact_of_agree (h : i.code.isSome ↔ i.vector ∈ errorStubs)
    (hroom : 184 ≤ (m.entryStack P).toNat) : IsrExact P m i := by
  have hframe := isrWords_stacked i hroom
  rw [isrWords_mirror m h] at hframe
  have hcs := atComparison_cs h hroom
  have hgs : (m.atIsrHandler P i).gs = if m.cs = 8 then m.gs else m.kernelGs := by
    rw [atIsrHandler_eq, hcs]
  have hkernelGs : (m.atIsrHandler P i).kernelGs = if m.cs = 8 then m.kernelGs else m.gs := by
    rw [atIsrHandler_eq, hcs]
  refine ⟨hframe, ?_, hgs, fun m' hback => ?_⟩
  · rw [atIsrHandler_eq]
    exact Function.update_self Reg.rdi _ m.regs
  · have hkept : m'.stack.Stacked (x86Registers.map (m.isrField i)) := by
      have hsame := hframe.congr (m := m'.stack.mem) hback.frame
      rwa [← hback.top] at hsame
    rw [isrReturn_eq hkept, hback.gs, hback.kernelGs, hgs, hkernelGs]
    -- exchanged on both ways or on none
    by_cases hring : m.cs = 8
    · simp only [if_pos hring]
    · simp only [if_neg hring]

/-- **Without agreement** the words of the processor are off by one, so that the selector could only be
right if it were null. -/
theorem not_isrExact (h : ¬(i.code.isSome ↔ i.vector ∈ errorStubs)) (hroom : 184 ≤ (m.entryStack P).toNat)
    (hcs : m.cs ≠ 0) : ¬ IsrExact P m i := by
  intro hexact
  have hpushed := isrWords_stacked i hroom
  have hat (k : ℕ) (v w : UInt64) (hv : (m.isrWords i).reverse[k]? = some v)
      (hw : (x86Registers.map (m.isrField i))[k]? = some w) : v = w :=
    (hpushed.2 k v hv).symm.trans (hexact.frame.2 k w hw)
  obtain ⟨vector, code⟩ := i
  cases code with
  | none =>
    -- no zero is pushed: `rip` is where the code should be, and `cs` where `rip` should be
    have hwords : (m.isrWords ⟨vector, none⟩).reverse =
        (m.iretWords ++ [vector] ++ pushOrder.map m.regs).reverse := by
      have hmem : vector ∈ errorStubs := by
        by_contra hmem
        exact h ⟨fun hsome => by simp at hsome, fun hin => (hmem hin).elim⟩
      unfold Machine.isrWords stubWords
      rw [if_pos hmem]
      rfl
    rw [hwords] at hat
    have hrip : m.rip = 0 := hat 16 m.rip 0 rfl rfl
    have hsel : m.cs = m.rip := hat 17 m.cs m.rip rfl rfl
    exact hcs (hsel.trans hrip)
  | some e =>
    -- a zero is pushed on the code: the code is where `rip` should be, and `rip` where `cs` should be
    have hwords : (m.isrWords ⟨vector, some e⟩).reverse =
        (m.iretWords ++ [e, 0, vector] ++ pushOrder.map m.regs).reverse := by
      have hmem : vector ∉ errorStubs := fun hmem => h ⟨fun _ => hmem, fun _ => rfl⟩
      unfold Machine.isrWords stubWords
      rw [if_neg hmem]
      rfl
    rw [hwords] at hat
    have hcode : 0 = e := hat 16 0 e rfl rfl
    have hrip : e = m.rip := hat 17 e m.rip rfl rfl
    have hsel : m.rip = m.cs := hat 18 m.rip m.cs rfl rfl
    exact hcs (hsel.symm.trans (hrip.symm.trans hcode.symm))

end Cutesugar.Kernel.Syscall
