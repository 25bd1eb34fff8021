import Cutesugar.Kernel.Arch.Irq
import Cutesugar.Lib.CallStack
import Mathlib.Logic.Relation
import Mathlib.Tactic.FinCases

/-!
# System calls (`libc/arch/syscall.s`, `kernel/arch/irq.s`, `kernel/arch/idt.c`)

A call of `invokesystemcall`, instruction by instruction: the stub moves its arguments, `int $128`
enters `syscall_handler`, which pushes the registers as a `struct x86Registers` and calls
`syscall_handler_inner`, and all goes back the same way. Memory is one of bytes, with the stacks in it.

The functions of `syscall_entries` may do anything to the memory that is not their caller's, and
compiled code leaves anything in the registers that a call need not preserve.

- `CodeAt`: where instructions are in memory.
- `Machine.step`, `Reaches`: execution.
- `invokesystemcall_iff`: when the four arguments arrive.
-/

namespace Cutesugar.Kernel.Syscall

open Lib Lib.CallStack Irq

/-! ## Instructions -/

/-- Instructions that go on with the one behind them. -/
inductive Simple where
  | movq (src dst : Reg)
  /-- `mov %rsp, dst` -/
  | movRsp (dst : Reg)
  /-- `mov %rsp, %gs:offset` -/
  | storeRsp (offset : UInt64)
  | pushq (r : Reg)
  | pushImmediate (n : UInt64)
  | popq (r : Reg)
  | addRsp (n : UInt64)
  | swapgs

inductive Instruction where
  | simple (i : Simple)
  | int (vector : ℕ)
  | iretq
  | call (target : UInt64)
  /-- `call syscall_handler_inner` -/
  | callInner
  | ret

/-- `invokesystemcall`. -/
def invokesystemcall : List Instruction :=
  [.simple (.movq .rdi .rax), .simple (.movq .rsi .rdi), .simple (.movq .rdx .rsi),
    .simple (.movq .rcx .rdx), .simple (.movq .rdx .r9), .int 128, .ret]

/-- The order in which `syscall_handler` pops the registers. -/
def popOrder : List Reg :=
  [.r15, .r14, .r13, .r12, .r11, .r10, .r9, .r8, .rdi, .rsi, .rbp, .rdx, .rcx, .rbx, .rax]

/-- `syscall_handler` up to its call. -/
def prologue : List Simple :=
  [.swapgs, .storeRsp 0x78, .pushImmediate 0, .pushImmediate 0] ++ pushOrder.map .pushq ++ [.movRsp .rdi]

/-- `syscall_handler` behind its call. -/
def epilogue : List Simple := popOrder.map .popq ++ [.addRsp 16, .swapgs]

/-- `syscall_handler`. -/
def syscallHandler : List Instruction :=
  prologue.map .simple ++ [.callInner] ++ epilogue.map .simple ++ [.iretq]

/-! ## The dispatcher -/

/-- The fields of `struct x86Registers`. -/
inductive Field where
  | reg (r : Reg)
  | interruptNo | errorCode | rip | cs | rflags | ursp | ss
  deriving DecidableEq

/-- `struct x86Registers`. -/
def x86Registers : List Field :=
  [.reg .r15, .reg .r14, .reg .r13, .reg .r12, .reg .r11, .reg .r10, .reg .r9, .reg .r8,
    .reg .rdi, .reg .rsi, .reg .rbp, .reg .rdx, .reg .rcx, .reg .rbx, .reg .rax,
    .interruptNo, .errorCode, .rip, .cs, .rflags, .ursp, .ss]

def Field.offset (f : Field) : ℕ := 8 * x86Registers.idxOf f

/-- A call of a function of `syscall_entries`, and what it returned. -/
structure Call where
  number : UInt64
  args : UInt64 × UInt64 × UInt64 × UInt64
  result : UInt64
  deriving DecidableEq

/-- The code in memory, the table of interrupts, the stack pointer of the TSS, the functions of
`syscall_entries` and what compiled code leaves in the registers. -/
structure Processor where
  code : UInt64 → Option (Instruction × UInt64)
  idt : ℕ → UInt64
  rsp0 : UInt64
  syscallEntries : UInt64 → UInt64 × UInt64 × UInt64 × UInt64 → Memory → UInt64 × Memory
  scratch : Memory → Reg → UInt64

/-- `syscall_handler_inner`, and the call it makes. -/
def syscallHandlerInner (P : Processor) (regs : ℕ) (mem : Memory) : Memory × List Call :=
  let field (f : Field) : UInt64 := word mem (regs + f.offset)
  -- an unknown number changes nothing, and `rax` comes back as it was
  if field (.reg .rax) > 8 then (mem, [])
  else
    let args :=
      -- number 1 clones the caller: it gets where ring 3 was interrupted
      if field (.reg .rax) = 1 then (field .rip, field .ursp, field (.reg .rdx), field (.reg .rcx))
      else (field (.reg .rdi), field (.reg .rsi), field (.reg .rdx), field (.reg .rcx))
    let (result, mem') := P.syscallEntries (field (.reg .rax)) args mem
    (mem'.store64 (regs + Field.offset (.reg .rax)) result.toNat, [⟨field (.reg .rax), args, result⟩])

/-! ## Execution -/

/-- The registers and the memory, and the calls made so far. -/
@[ext] structure Machine where
  regs : Reg → UInt64
  stack : CallStack
  rip : UInt64
  cs : UInt64
  rflags : UInt64
  ss : UInt64
  gs : UInt64
  kernelGs : UInt64
  calls : List Call

/-- What a simple instruction does. -/
def Simple.effect (m : Machine) : Simple → Machine
  | .movq src dst => { m with regs := Function.update m.regs dst (m.regs src) }
  | .movRsp dst => { m with regs := Function.update m.regs dst m.stack.top }
  | .storeRsp offset =>
    { m with stack := ⟨m.stack.mem.store64 (m.gs + offset).toNat m.stack.top.toNat, m.stack.top⟩ }
  | .pushq r => { m with stack := m.stack.push (m.regs r) }
  | .pushImmediate n => { m with stack := m.stack.push n }
  | .popq r =>
    { m with
      regs := Function.update m.regs r (word m.stack.mem m.stack.top.toNat)
      stack := ⟨m.stack.mem, m.stack.top + 8⟩ }
  | .addRsp n => { m with stack := ⟨m.stack.mem, m.stack.top + n⟩ }
  | .swapgs => { m with gs := m.kernelGs, kernelGs := m.gs }

/-- Where an interrupt pushes its frame: at `rsp0` unless it comes in ring 0, aligned. -/
def Machine.entryStack (P : Processor) (m : Machine) : UInt64 :=
  (if m.cs = 8 then m.stack.top else P.rsp0) &&& 0xfffffffffffffff0

/-- What the processor pushes when it is interrupted. -/
def Machine.iretWords (m : Machine) : List UInt64 := [m.ss, m.stack.top, m.rflags, m.cs, m.rip]

/-- What an instruction does, with the address of the next one in `rip`. -/
def Instruction.exec (P : Processor) (m : Machine) : Instruction → Machine
  | .simple i => i.effect m
  | .int vector =>
    { m with
      stack := CallStack.pushAll ⟨m.stack.mem, m.entryStack P⟩ m.iretWords
      rip := P.idt vector
      cs := 8
      rflags := m.rflags &&& 0xfffffffffffffcff
      ss := if m.cs = 8 then m.ss else 0 }
  | .iretq =>
    let frame (i : ℕ) := word m.stack.mem (m.stack.top.toNat + 8 * i)
    { m with
      rip := frame 0
      cs := frame 1
      rflags := frame 2
      stack := ⟨m.stack.mem, frame 3⟩
      ss := frame 4 }
  | .call target => { m with stack := m.stack.push m.rip, rip := target }
  | .callInner =>
    -- the address it returns to is `rip` already, and the stack pointer is back where it was
    let (mem, calls) := syscallHandlerInner P (m.regs .rdi).toNat (m.stack.push m.rip).mem
    { m with
      regs := fun r => if r ∈ calleeSaved then m.regs r else P.scratch mem r
      stack := ⟨mem, m.stack.top⟩
      calls := m.calls ++ calls }
  | .ret =>
    { m with
      stack := ⟨m.stack.mem, m.stack.top + 8⟩
      rip := word m.stack.mem m.stack.top.toNat }

/-- One instruction. -/
def Machine.step (P : Processor) (m : Machine) : Option Machine :=
  (P.code m.rip).map fun i => i.1.exec P { m with rip := i.2 }

/-- A run. -/
def Reaches (P : Processor) : Machine → Machine → Prop :=
  Relation.ReflTransGen fun m m' => m.step P = some m'

/-- Some instructions one after the other, up to an address. -/
def CodeAt (P : Processor) (p : UInt64) : List Instruction → UInt64 → Prop
  | [], q => p = q
  | i :: is, q => ∃ p', P.code p = some (i, p') ∧ CodeAt P p' is q

variable {P : Processor} {m m' : Machine} {rest : List Instruction} {q : UInt64}

/-! ## Runs -/

theorem Simple.effect_rip (i : Simple) (p : UInt64) :
    i.effect { m with rip := p } = { i.effect m with rip := p } := by
  cases i <;> rfl

theorem Reaches.first {i : Instruction} {p : UInt64} (h : CodeAt P p (i :: rest) q) (m : Machine) :
    ∃ p', CodeAt P p' rest q ∧ Reaches P { m with rip := p } (i.exec P { m with rip := p' }) := by
  obtain ⟨p', hcode, hrest⟩ := h
  refine ⟨p', hrest, Relation.ReflTransGen.single ?_⟩
  rw [Machine.step, hcode]
  rfl

/-- **A block of simple instructions** is run to its end. -/
theorem Reaches.simple {is : List Simple} {p : UInt64} (h : CodeAt P p (is.map .simple ++ rest) q)
    (m : Machine) :
    ∃ p', CodeAt P p' rest q ∧
      Reaches P { m with rip := p } { is.foldl Simple.effect m with rip := p' } := by
  induction is generalizing m p with
  | nil => exact ⟨p, h, Relation.ReflTransGen.refl⟩
  | cons i is ih =>
    obtain ⟨p₁, hcode, hfirst⟩ := Reaches.first h m
    rw [Instruction.exec, Simple.effect_rip] at hfirst
    obtain ⟨p₂, hrest, hrun⟩ := ih hcode (i.effect m)
    exact ⟨p₂, hrest, hfirst.trans hrun⟩

/-- Calls are only added. -/
theorem calls_step (h : m.step P = some m') : m.calls <+: m'.calls := by
  obtain ⟨⟨i, p⟩, -, rfl⟩ := Option.map_eq_some_iff.mp h
  rw [Instruction.exec.eq_def]
  cases i with
  | simple i => cases i <;> exact List.prefix_rfl
  | callInner => exact List.prefix_append ..
  | _ => exact List.prefix_rfl

theorem Reaches.calls (h : Reaches P m m') : m.calls <+: m'.calls := by
  induction h with
  | refl => exact List.prefix_rfl
  | tail _ hstep ih => exact ih.trans (calls_step hstep)

/-- There is one run, so two states that have added one call have added the same. -/
theorem Reaches.call_unique {m₁ m₂ : Machine} {c₁ c₂ : Call} (h₁ : Reaches P m m₁)
    (h₂ : Reaches P m m₂) (hcalls₁ : m₁.calls = m.calls ++ [c₁]) (hcalls₂ : m₂.calls = m.calls ++ [c₂]) :
    c₁ = c₂ := by
  have hunique : Relator.RightUnique fun a b : Machine => a.step P = some b :=
    fun a b c hb hc => Option.some.inj (hb.symm.trans hc)
  have hlength : m₁.calls.length = m₂.calls.length := by
    rw [hcalls₁, hcalls₂, List.length_append, List.length_append]
    rfl
  have hsame : m₁.calls = m₂.calls := by
    rcases Relation.ReflTransGen.total_of_right_unique hunique h₁ h₂ with h | h
    · exact (Reaches.calls h).eq_of_length hlength
    · exact ((Reaches.calls h).eq_of_length hlength.symm).symm
  rw [hcalls₁, hcalls₂] at hsame
  simpa using hsame

/-! ## The frame -/

/-- The value that a field of the frame has after an entry. -/
def Machine.field (m : Machine) : Field → UInt64
  | .reg r => m.regs r
  | .interruptNo => 0
  | .errorCode => 0
  | .rip => m.rip
  | .cs => m.cs
  | .rflags => m.rflags
  | .ursp => m.stack.top
  | .ss => m.ss

/-- A frame whose fields have these values is on top of the stack. -/
def Framed (s : CallStack) (value : Field → UInt64) : Prop := s.Stacked (x86Registers.map value)

/-- **The pushes mirror** `struct x86Registers`: what is pushed last is its first field. -/
theorem pushes_mirror (m : Machine) :
    (m.iretWords ++ [0, 0] ++ pushOrder.map m.regs).reverse = x86Registers.map m.field := rfl

variable {s : CallStack} {value : Field → UInt64}

theorem Field.mem_x86Registers (f : Field) : f ∈ x86Registers := by
  cases f with
  | reg r => cases r <;> decide
  | _ => decide

theorem Field.getElem?_map (f : Field) (value : Field → UInt64) :
    (x86Registers.map value)[x86Registers.idxOf f]? = some (value f) := by
  have hlt := List.idxOf_lt_length_of_mem (Field.mem_x86Registers f)
  rw [List.getElem?_map, List.getElem?_eq_getElem hlt, List.getElem_idxOf hlt]
  rfl

/-- A field of the frame. -/
theorem Framed.field (h : Framed s value) (f : Field) :
    word s.mem (s.top.toNat + f.offset) = value f :=
  h.2 _ _ (f.getElem?_map value)

/-- A field is assigned. -/
theorem Framed.update (h : Framed s value) (f : Field) (v : UInt64) :
    Framed ⟨s.mem.store64 (s.top.toNat + f.offset) v.toNat, s.top⟩ (Function.update value f v) := by
  have hlt := List.idxOf_lt_length_of_mem (Field.mem_x86Registers f)
  have hnodup : x86Registers.Nodup := by decide
  have hset : (x86Registers.map value).set (x86Registers.idxOf f) v =
      x86Registers.map (Function.update value f v) := by
    apply List.ext_getElem
    · simp
    · intro i hi hi'
      rw [List.length_map] at hi'
      rw [List.getElem_set, List.getElem_map, List.getElem_map]
      split_ifs with hidx
      · subst hidx
        rw [List.getElem_idxOf hlt, Function.update_self]
      · rw [Function.update_of_ne]
        intro heq
        apply hidx
        rw [← heq]
        exact hnodup.idxOf_getElem i hi'
  have hlength : x86Registers.idxOf f < (x86Registers.map value).length := by
    rwa [List.length_map]
  rw [Framed, ← hset]
  exact Stacked.set h hlength

/-! ## Entry and exit -/

theorem foldl_pushq (rs : List Reg) : (rs.map Simple.pushq).foldl Simple.effect m =
    { m with stack := m.stack.pushAll (rs.map m.regs) } := by
  induction rs generalizing m with
  | nil => rfl
  | cons r rs ih =>
    rw [List.map_cons, List.foldl_cons, ih]
    rfl

/-- Registers popped get the words of the stack. -/
theorem foldl_popq {rs : List Reg} {f : Reg → UInt64} {ws : List UInt64}
    (h : m.stack.Stacked (rs.map f ++ ws)) :
    ∃ top, Stacked ⟨m.stack.mem, top⟩ ws ∧ (rs.map Simple.popq).foldl Simple.effect m =
      { m with regs := fun r => if r ∈ rs then f r else m.regs r, stack := ⟨m.stack.mem, top⟩ } := by
  induction rs generalizing m with
  | nil => exact ⟨m.stack.top, h, by simp⟩
  | cons r rs ih =>
    have hhead : word m.stack.mem m.stack.top.toNat = f r := Stacked.head h
    obtain ⟨top, hstacked, hrest⟩ := ih (m := (Simple.popq r).effect m) (Stacked.tail h)
    refine ⟨top, hstacked, ?_⟩
    rw [List.map_cons, List.foldl_cons, hrest]
    simp only [Simple.effect, Machine.mk.injEq, and_true]
    funext r'
    by_cases hmem : r' ∈ rs
    · rw [if_pos hmem, if_pos (List.mem_cons_of_mem r hmem)]
    · rw [if_neg hmem]
      rcases eq_or_ne r' r with rfl | hne
      · rw [Function.update_self, hhead, if_pos (List.mem_cons_self ..)]
      · rw [Function.update_of_ne hne, if_neg]
        intro hin
        exact (List.mem_cons.mp hin).elim hne hmem

/-- The stack at the end of the prologue. -/
def Machine.framePushed (m : Machine) : CallStack :=
  CallStack.pushAll ⟨m.stack.mem.store64 (m.kernelGs + 0x78).toNat m.stack.top.toNat, m.stack.top⟩
    ([0, 0] ++ pushOrder.map m.regs)

theorem prologue_eq (m : Machine) : prologue.foldl Simple.effect m =
    { m with
      regs := Function.update m.regs .rdi m.framePushed.top
      stack := m.framePushed
      gs := m.kernelGs
      kernelGs := m.gs } := by
  unfold prologue
  rw [List.foldl_append, List.foldl_append, foldl_pushq, Machine.framePushed, pushAll_append]
  simp only [List.foldl_cons, List.foldl_nil, Simple.effect, CallStack.pushAll]

/-- The prologue puts its words on top of those of the processor. -/
theorem framePushed_spec {ws : List UInt64} (hs : m.stack.Stacked ws) (hroom : 136 ≤ m.stack.top.toNat)
    (hgs : Apart (m.kernelGs + 0x78).toNat 8 m.stack.top.toNat (8 * ws.length)) :
    m.framePushed.Stacked (([0, 0] ++ pushOrder.map m.regs).reverse ++ ws) ∧
      m.framePushed.top.toNat = m.stack.top.toNat - 136 ∧
      ∀ b, ¬ (m.stack.top.toNat - 136 ≤ b ∧ b < m.stack.top.toNat) →
        ¬ ((m.kernelGs + 0x78).toNat ≤ b ∧ b < (m.kernelGs + 0x78).toNat + 8) →
          m.framePushed.mem b = m.stack.mem b := by
  have hlength : ([0, 0] ++ pushOrder.map m.regs).length = 17 := rfl
  have hstored : Stacked ⟨m.stack.mem.store64 (m.kernelGs + 0x78).toNat m.stack.top.toNat, m.stack.top⟩
      ws := hs.congr fun b hb hb' => Memory.store64_apply_of_not_mem (by
    unfold Apart at hgs
    omega)
  have hwords : 8 * ([0, 0] ++ pushOrder.map m.regs).length ≤ m.stack.top.toNat := by
    rw [hlength]
    omega
  have htop : m.framePushed.top.toNat =
      m.stack.top.toNat - 8 * ([0, 0] ++ pushOrder.map m.regs).length := pushAll_top hwords
  refine ⟨hstored.pushAll hwords, ?_, fun b hb hb' => ?_⟩
  · rw [htop, hlength]
  · have hpushes : m.framePushed.mem b =
        m.stack.mem.store64 (m.kernelGs + 0x78).toNat m.stack.top.toNat b := pushAll_apply hwords (by
      rw [hlength]
      exact hb)
    rw [hpushes, Memory.store64_apply_of_not_mem hb']

/-- The stack that an entry comes to is large enough, and apart from the return address of the stub and
from what `%gs:0x78` is. -/
structure Room (P : Processor) (m : Machine) : Prop where
  size : 184 ≤ (m.entryStack P).toNat
  apart : Apart ((m.entryStack P).toNat - 184) 184 m.stack.top.toNat 8
  gsFrame : Apart (m.kernelGs + 0x78).toNat 8 ((m.entryStack P).toNat - 176) 176
  gsReturn : Apart (m.kernelGs + 0x78).toNat 8 m.stack.top.toNat 8

/-- What holds before the call of the dispatcher. -/
structure Entered (P : Processor) (m m' : Machine) : Prop where
  framed : Framed m'.stack m.field
  top : m'.stack.top.toNat = (m.entryStack P).toNat - 176
  rdi : m'.regs .rdi = m'.stack.top
  gs : m'.gs = m.kernelGs
  kernelGs : m'.kernelGs = m.gs
  calls : m'.calls = m.calls
  returnAddress : word m'.stack.mem m.stack.top.toNat = word m.stack.mem m.stack.top.toNat

/-- **Entry.** -/
theorem entered (h : Room P m) :
    Entered P m (prologue.foldl Simple.effect ((Instruction.int 128).exec P m)) := by
  have hsize := h.size
  have hapart := h.apart
  have hgsFrame := h.gsFrame
  have hgsReturn := h.gsReturn
  have hlength : m.iretWords.length = 5 := rfl
  have hroom : 8 * m.iretWords.length ≤ (m.entryStack P).toNat := by omega
  -- the words that the processor pushes
  have hstacked := (stacked_nil ⟨m.stack.mem, m.entryStack P⟩).pushAll hroom
  have htop : (CallStack.pushAll ⟨m.stack.mem, m.entryStack P⟩ m.iretWords).top.toNat =
      (m.entryStack P).toNat - 40 := pushAll_top hroom
  have hframe (b : ℕ) (hb : ¬ ((m.entryStack P).toNat - 40 ≤ b ∧ b < (m.entryStack P).toNat)) :
      (CallStack.pushAll ⟨m.stack.mem, m.entryStack P⟩ m.iretWords).mem b = m.stack.mem b :=
    pushAll_apply hroom hb
  obtain ⟨hpushed, hbelow, hsame⟩ := framePushed_spec (m := (Instruction.int 128).exec P m) hstacked
    (by
      change 136 ≤ (CallStack.pushAll ⟨m.stack.mem, m.entryStack P⟩ m.iretWords).top.toNat
      omega)
    (by
      change Apart (m.kernelGs + 0x78).toNat 8
        (CallStack.pushAll ⟨m.stack.mem, m.entryStack P⟩ m.iretWords).top.toNat 40
      unfold Apart at hgsFrame ⊢
      omega)
  have hbelow' : ((Instruction.int 128).exec P m).framePushed.top.toNat =
      (CallStack.pushAll ⟨m.stack.mem, m.entryStack P⟩ m.iretWords).top.toNat - 136 := hbelow
  rw [prologue_eq]
  refine ⟨hpushed, ?_, ?_, rfl, rfl, rfl, word_congr fun b hb hb' => ?_⟩
  · change ((Instruction.int 128).exec P m).framePushed.top.toNat = _
    omega
  · simp only [Function.update_self]
  · change ((Instruction.int 128).exec P m).framePushed.mem b = _
    unfold Apart at hapart hgsReturn
    rw [hsame b, ← hframe b]
    · rfl
    · omega
    · change ¬ ((CallStack.pushAll ⟨m.stack.mem, m.entryStack P⟩ m.iretWords).top.toNat - 136 ≤ b ∧
        b < (CallStack.pushAll ⟨m.stack.mem, m.entryStack P⟩ m.iretWords).top.toNat)
      omega
    · change ¬ ((m.kernelGs + 0x78).toNat ≤ b ∧ b < (m.kernelGs + 0x78).toNat + 8)
      omega

/-- **Exit**: everything is as the frame says. -/
theorem left {value : Field → UInt64} (h : Framed m.stack value) :
    Instruction.iretq.exec P (epilogue.foldl Simple.effect m) =
      { m with
        regs := fun r => value (.reg r)
        stack := ⟨m.stack.mem, value .ursp⟩
        rip := value .rip
        cs := value .cs
        rflags := value .rflags
        ss := value .ss
        gs := m.kernelGs
        kernelGs := m.gs } := by
  have hstack : m.stack.Stacked (popOrder.map (fun r => value (.reg r)) ++
      [value .interruptNo, value .errorCode, value .rip, value .cs, value .rflags, value .ursp, value .ss]) := h
  obtain ⟨top, hstacked, hpops⟩ := foldl_popq hstack
  have hiret : Stacked ⟨m.stack.mem, top + 8 + 8⟩
      [value .rip, value .cs, value .rflags, value .ursp, value .ss] := hstacked.tail.tail
  have hall (r : Reg) : r ∈ popOrder := by
    cases r <;> decide
  have hregs : (fun r => if r ∈ popOrder then value (.reg r) else m.regs r) = fun r => value (.reg r) :=
    funext fun r => if_pos (hall r)
  have hsum : top + 16 = top + 8 + 8 := by
    rw [UInt64.add_assoc]
    rfl
  unfold epilogue
  rw [List.foldl_append, hpops, hregs]
  simp only [List.foldl_cons, List.foldl_nil, Simple.effect, Instruction.exec, hsum]
  rw [hiret.2 0 _ rfl, hiret.2 1 _ rfl, hiret.2 2 _ rfl, hiret.2 3 _ rfl, hiret.2 4 _ rfl]

/-- The function of a number leaves some bytes as they are. -/
def Processor.Keeps (P : Processor) (n : UInt64) (a k : ℕ) : Prop :=
  ∀ args mem b, a ≤ b → b < a + k → (P.syscallEntries n args mem).2 b = mem b

/-- **The dispatcher** calls the function that `rax` says, with the registers of the frame. -/
theorem syscallHandlerInner_spec {value : Field → UInt64} (h : Framed s value)
    (hle : value (.reg .rax) ≤ 8) (hne : value (.reg .rax) ≠ 1)
    (hkeeps : P.Keeps (value (.reg .rax)) s.top.toNat 176) :
    ∃ result mem, syscallHandlerInner P s.top.toNat s.mem = (mem, [⟨value (.reg .rax),
        (value (.reg .rdi), value (.reg .rsi), value (.reg .rdx), value (.reg .rcx)), result⟩]) ∧
      Framed ⟨mem, s.top⟩ (Function.update value (.reg .rax) result) ∧
      ∀ a, P.Keeps (value (.reg .rax)) a 8 → Apart s.top.toNat 176 a 8 → word mem a = word s.mem a := by
  have hfield (f : Field) : word s.mem (s.top.toNat + f.offset) = value f := h.field f
  have hgreater : ¬ value (.reg .rax) > 8 := UInt64.not_lt.mpr hle
  generalize hargs :
    (value (.reg .rdi), value (.reg .rsi), value (.reg .rdx), value (.reg .rcx)) = args
  generalize hentry : P.syscallEntries (value (.reg .rax)) args s.mem = entry
  have hkept {a k b : ℕ} (hk : P.Keeps (value (.reg .rax)) a k) (hb : a ≤ b) (hb' : b < a + k) :
      entry.2 b = s.mem b := by
    rw [← hentry]
    exact hk args s.mem b hb hb'
  refine ⟨entry.1, entry.2.store64 (s.top.toNat + Field.offset (.reg .rax)) entry.1.toNat, ?_, ?_, ?_⟩
  · unfold syscallHandlerInner
    simp only [hfield, if_neg hgreater, if_neg hne, hargs, hentry]
  · -- the frame, which the function left as it was
    have hframed : Framed ⟨entry.2, s.top⟩ value := Stacked.congr h fun b hb hb' => hkept hkeeps hb hb'
    exact hframed.update (.reg .rax) entry.1
  · intro a hk hapart
    have hoffset : Field.offset (.reg .rax) = 112 := rfl
    refine word_congr fun b hb hb' => ?_
    rw [Memory.store64_apply_of_not_mem, hkept hk hb hb']
    unfold Apart at hapart
    omega

/-- The call of the dispatcher. -/
theorem called {value : Field → UInt64} (h : Framed m.stack value) (hrdi : m.regs .rdi = m.stack.top)
    (hroom : 8 ≤ m.stack.top.toNat) (hle : value (.reg .rax) ≤ 8) (hne : value (.reg .rax) ≠ 1)
    (hkeeps : P.Keeps (value (.reg .rax)) m.stack.top.toNat 176) (p : UInt64) :
    ∃ result mem, Instruction.callInner.exec P { m with rip := p } =
      { m with
        rip := p
        regs := fun r => if r ∈ calleeSaved then m.regs r else P.scratch mem r
        stack := ⟨mem, m.stack.top⟩
        calls := m.calls ++ [⟨value (.reg .rax), (value (.reg .rdi), value (.reg .rsi),
          value (.reg .rdx), value (.reg .rcx)), result⟩] } ∧
      Framed ⟨mem, m.stack.top⟩ (Function.update value (.reg .rax) result) ∧
      ∀ a, P.Keeps (value (.reg .rax)) a 8 → Apart (m.stack.top.toNat - 8) 184 a 8 →
        word mem a = word m.stack.mem a := by
  have hpushed (b : ℕ) (hb : ¬ (m.stack.top.toNat - 8 ≤ b ∧ b < m.stack.top.toNat)) :
      (m.stack.push p).mem b = m.stack.mem b := push_apply hroom hb
  have hframed : Framed ⟨(m.stack.push p).mem, m.stack.top⟩ value :=
    Stacked.congr h fun b hb _ => hpushed b (by omega)
  obtain ⟨result, mem, hinner, hupdated, hword⟩ := syscallHandlerInner_spec hframed hle hne hkeeps
  refine ⟨result, mem, ?_, hupdated, fun a hk hapart => ?_⟩
  · rw [Instruction.exec, hrdi]
    simp only [hinner]
  · have hframe : Apart m.stack.top.toNat 176 a 8 := by
      unfold Apart at hapart ⊢
      omega
    rw [hword a hk hframe]
    unfold Apart at hapart
    exact word_congr fun b hb hb' => hpushed b (by omega)

/-- **The handler** from the `int` to the instruction behind it: `rax` has the result, and all other
registers are the same. -/
theorem handled (hhandler : CodeAt P (P.idt 128) syscallHandler q) (hroom : Room P m)
    (hle : m.regs .rax ≤ 8) (hne : m.regs .rax ≠ 1)
    (hframe : P.Keeps (m.regs .rax) ((m.entryStack P).toNat - 176) 176)
    (hreturn : P.Keeps (m.regs .rax) m.stack.top.toNat 8) :
    ∃ result mem, Reaches P ((Instruction.int 128).exec P m)
        { m with
          regs := Function.update m.regs .rax result
          stack := ⟨mem, m.stack.top⟩
          calls := m.calls ++
            [⟨m.regs .rax, (m.regs .rdi, m.regs .rsi, m.regs .rdx, m.regs .rcx), result⟩] } ∧
      word mem m.stack.top.toNat = word m.stack.mem m.stack.top.toNat := by
  rw [syscallHandler, List.append_assoc, List.append_assoc] at hhandler
  -- the prologue
  have hentered := entered hroom
  obtain ⟨p₁, hinner, hprologue⟩ := Reaches.simple hhandler ((Instruction.int 128).exec P m)
  generalize prologue.foldl Simple.effect ((Instruction.int 128).exec P m) = atCall at hentered hprologue
  have hapart := hroom.apart
  have htop := hentered.top
  have hsize := hroom.size
  generalize (m.entryStack P).toNat = base at htop hsize hframe hapart
  have hbelow : 8 ≤ atCall.stack.top.toNat := by omega
  have hkeeps : P.Keeps (m.regs .rax) atCall.stack.top.toNat 176 := by rwa [htop]
  have hapart' : Apart (atCall.stack.top.toNat - 8) 184 m.stack.top.toNat 8 := by
    unfold Apart at hapart ⊢
    omega
  -- the dispatcher
  obtain ⟨p₂, hepilogue, hcall⟩ := Reaches.first hinner atCall
  obtain ⟨result, mem, hcalled, hupdated, hword⟩ := called hentered.framed hentered.rdi hbelow hle hne
    hkeeps p₂
  rw [hcalled] at hcall
  -- the epilogue
  obtain ⟨fromCall, hfrom⟩ : ∃ fromCall : Machine, fromCall = { atCall with
      regs := fun r => if r ∈ calleeSaved then atCall.regs r else P.scratch mem r
      stack := ⟨mem, atCall.stack.top⟩
      calls := atCall.calls ++
        [⟨m.regs .rax, (m.regs .rdi, m.regs .rsi, m.regs .rdx, m.regs .rcx), result⟩] } := ⟨_, rfl⟩
  have hend : Reaches P ((Instruction.int 128).exec P m) { fromCall with rip := p₂ } := by
    subst hfrom
    exact hprologue.trans hcall
  have hleft : Instruction.iretq.exec P (epilogue.foldl Simple.effect fromCall) =
      { m with
        regs := Function.update m.regs .rax result
        stack := ⟨mem, m.stack.top⟩
        calls := m.calls ++
          [⟨m.regs .rax, (m.regs .rdi, m.regs .rsi, m.regs .rdx, m.regs .rcx), result⟩] } := by
    have hframed : Framed fromCall.stack (Function.update m.field (.reg .rax) result) := by
      subst hfrom
      exact hupdated
    rw [left hframed]
    subst hfrom
    apply Machine.ext
    · funext r
      rcases eq_or_ne r .rax with rfl | hr
      · simp only [Function.update_self]
      · have hfield : Field.reg r ≠ .reg .rax := fun heq => hr (Field.reg.inj heq)
        simp only [Function.update_of_ne hr, Function.update_of_ne hfield, Machine.field]
    · rfl
    · rfl
    · rfl
    · rfl
    · rfl
    · exact hentered.kernelGs
    · exact hentered.gs
    · exact congrArg (· ++ _) hentered.calls
  obtain ⟨p₃, hiretq, hpops⟩ := Reaches.simple hepilogue fromCall
  obtain ⟨p₄, -, hback⟩ := Reaches.first hiretq (epilogue.foldl Simple.effect fromCall)
  refine ⟨result, mem, ?_, ?_⟩
  · rw [← hleft]
    exact (hend.trans hpops).trans hback
  · exact (hword _ hreturn hapart').trans hentered.returnAddress

/-! ## A system call -/

/-- A call of the stub, with the stub and the handler in memory. -/
structure Linked (P : Processor) (m : Machine) (back : UInt64) : Prop where
  stub : ∃ stub q, P.code m.rip = some (.call stub, back) ∧ CodeAt P stub invokesystemcall q
  handler : ∃ q, CodeAt P (P.idt 128) syscallHandler q

/-- The call is back, and has made one call of a function, with these arguments. -/
structure Marshalled (P : Processor) (m : Machine) (back n a b c d : UInt64) (m' : Machine) : Prop where
  reaches : Reaches P m m'
  rip : m'.rip = back
  calls : m'.calls = m.calls ++ [⟨n, (a, b, c, d), m'.regs .rax⟩]
  saved : ∀ r ∈ calleeSaved, m'.regs r = m.regs r
  rsp : m'.stack.top = m.stack.top

/-- The stack in the stub. -/
def Machine.inStub (m : Machine) (back : UInt64) : Machine := { m with stack := m.stack.push back }

/-- The stub up to its `int`. -/
theorem reaches_int {back : UInt64} (h : Linked P m back) :
    ∃ regs p q, Reaches P m ((Instruction.int 128).exec P { m.inStub back with regs := regs, rip := p }) ∧
      CodeAt P p [.ret] q ∧
      regs .rax = m.regs .rdi ∧ regs .rdi = m.regs .rsi ∧ regs .rsi = m.regs .rdx ∧
      regs .rdx = m.regs .rcx ∧ regs .rcx = m.regs .rcx ∧ ∀ r ∈ calleeSaved, regs r = m.regs r := by
  obtain ⟨stub, q, hcall, hstub⟩ := h.stub
  have hcalled : Reaches P m { m.inStub back with rip := stub } := by
    apply Relation.ReflTransGen.single
    rw [Machine.step, hcall]
    rfl
  have hblock : CodeAt P stub (([.movq .rdi .rax, .movq .rsi .rdi, .movq .rdx .rsi, .movq .rcx .rdx,
      .movq .rdx .r9] : List Simple).map .simple ++ [.int 128, .ret]) q := hstub
  obtain ⟨p₁, hint, hmoves⟩ := Reaches.simple hblock (m.inStub back)
  obtain ⟨p₂, hret, hentry⟩ := Reaches.first hint
    ([.movq .rdi .rax, .movq .rsi .rdi, .movq .rdx .rsi, .movq .rcx .rdx, .movq .rdx .r9].foldl
      Simple.effect (m.inStub back))
  refine ⟨_, p₂, q, (hcalled.trans hmoves).trans hentry, hret, rfl, rfl, rfl, rfl, rfl, ?_⟩
  intro r hr
  fin_cases hr <;> rfl

/-- **A system call**: the dispatcher gets the third argument twice. -/
theorem exists_marshalled {back : UInt64} (hlinked : Linked P m back) (hle : m.regs .rdi ≤ 8)
    (hne : m.regs .rdi ≠ 1) (hroom : Room P (m.inStub back))
    (hframe : P.Keeps (m.regs .rdi) (((m.inStub back).entryStack P).toNat - 176) 176)
    (hreturn : P.Keeps (m.regs .rdi) (m.stack.top - 8).toNat 8) :
    ∃ m', Marshalled P m back (m.regs .rdi) (m.regs .rsi) (m.regs .rdx) (m.regs .rcx) (m.regs .rcx) m' := by
  obtain ⟨regs, ret, q, hstub, hret, hn, ha, hb, hc, hd, hsaved⟩ := reaches_int hlinked
  obtain ⟨q', hhandler⟩ := hlinked.handler
  rw [← hn] at hle hne hframe hreturn
  obtain ⟨result, mem, hrun, hword⟩ := handled (m := { m.inStub back with regs := regs, rip := ret })
    hhandler ⟨hroom.size, hroom.apart, hroom.gsFrame, hroom.gsReturn⟩ hle hne hframe hreturn
  obtain ⟨p, -, hlast⟩ := Reaches.first hret
    { m.inStub back with
      regs := Function.update regs .rax result
      stack := ⟨mem, m.stack.top - 8⟩
      calls := m.calls ++ [⟨regs .rax, (regs .rdi, regs .rsi, regs .rdx, regs .rcx), result⟩] }
  refine ⟨_, (hstub.trans hrun).trans hlast, ?_, ?_, ?_, ?_⟩
  · change word mem (m.stack.top - 8).toNat = back
    have hpushed : word (m.stack.push back).mem (m.stack.push back).top.toNat = back := word_store64 ..
    rw [← hpushed]
    exact hword
  · change m.calls ++ [_] = m.calls ++ [_]
    rw [hn, ha, hb, hc, hd]
    rfl
  · intro r hr
    change Function.update regs .rax result r = m.regs r
    rw [Function.update_of_ne, hsaved r hr]
    rintro rfl
    exact absurd hr (by decide)
  · change m.stack.top - 8 + 8 = m.stack.top
    exact UInt64.sub_add_cancel ..

/-- **Marshalling**: the function is called with the arguments exactly if the fourth is the third one
again. The result is that of the function, and the registers that a call preserves are the same. -/
theorem invokesystemcall_iff {back : UInt64} (hlinked : Linked P m back) (hle : m.regs .rdi ≤ 8)
    (hne : m.regs .rdi ≠ 1) (hroom : Room P (m.inStub back))
    (hframe : P.Keeps (m.regs .rdi) (((m.inStub back).entryStack P).toNat - 176) 176)
    (hreturn : P.Keeps (m.regs .rdi) (m.stack.top - 8).toNat 8) :
    (∃ m', Marshalled P m back (m.regs .rdi) (m.regs .rsi) (m.regs .rdx) (m.regs .rcx) (m.regs .r8) m') ↔
      m.regs .r8 = m.regs .rcx := by
  obtain ⟨m₁, hrun⟩ := exists_marshalled hlinked hle hne hroom hframe hreturn
  constructor
  · rintro ⟨m₂, hmarshalled⟩
    have hcall := Reaches.call_unique hrun.reaches hmarshalled.reaches hrun.calls hmarshalled.calls
    simp only [Call.mk.injEq, Prod.mk.injEq] at hcall
    exact hcall.2.1.2.2.2.symm
  · intro heq
    rw [heq]
    exact ⟨m₁, hrun⟩

/-! ## A program in memory -/

/-- Instructions from address 0 on, each of one byte. -/
def codeOf (is : List Instruction) (a : UInt64) : Option (Instruction × UInt64) :=
  is[a.toNat]?.map fun i => (i, a + 1)

theorem codeAt_codeOf {table is : List Instruction} {p : UInt64} (hcode : P.code = codeOf table)
    (hlength : table.length < 2 ^ 64) (h : is <+: table.drop p.toNat) : ∃ q, CodeAt P p is q := by
  induction is generalizing p with
  | nil => exact ⟨p, rfl⟩
  | cons i is ih =>
    obtain ⟨rest, hrest⟩ := h
    have hp : p.toNat < table.length := by
      have hlen := congrArg List.length hrest
      rw [List.length_append, List.length_cons, List.length_drop] at hlen
      omega
    have hdrop := List.drop_eq_getElem_cons hp
    rw [← hrest, List.cons_append] at hdrop
    obtain ⟨hi, htail⟩ := List.cons.inj hdrop
    have hnext : (p + 1).toNat = p.toNat + 1 := by
      rw [UInt64.toNat_add]
      exact Nat.mod_eq_of_lt (by
        change p.toNat + 1 < 2 ^ 64
        omega)
    obtain ⟨q, hq⟩ := ih (p := p + 1) (by
      rw [hnext, ← htail]
      exact List.prefix_append ..)
    refine ⟨q, p + 1, ?_, hq⟩
    rw [hcode, codeOf, List.getElem?_eq_getElem hp, ← hi]
    rfl

/-- The stub, the handler behind it and a call of the stub; the functions return their last argument. -/
def smallProcessor : Processor where
  code := codeOf (invokesystemcall ++ syscallHandler ++ [.call 0])
  idt _ := 7
  rsp0 := 0x8000
  syscallEntries _ args mem := (args.2.2.2, mem)
  scratch _ _ := 0

/-- A program in ring 3 at the call, with these arguments. -/
def caller (n a b c d : UInt64) : Machine where
  regs
    | .rdi => n
    | .rsi => a
    | .rdx => b
    | .rcx => c
    | .r8 => d
    | _ => 0
  stack := ⟨fun _ => 0, 0x4000⟩
  rip := 46
  cs := 27
  rflags := 0x202
  ss := 35
  gs := 0
  kernelGs := 0x6000
  calls := []

theorem linked_caller (n a b c d : UInt64) : Linked smallProcessor (caller n a b c d) 47 := by
  have hlength : (invokesystemcall ++ syscallHandler ++ [Instruction.call 0]).length < 2 ^ 64 := by
    decide
  obtain ⟨q, hstub⟩ : ∃ q, CodeAt smallProcessor 0 invokesystemcall q :=
    codeAt_codeOf rfl hlength ⟨syscallHandler ++ [.call 0], rfl⟩
  exact ⟨⟨0, q, rfl, hstub⟩, codeAt_codeOf rfl hlength ⟨[.call 0], rfl⟩⟩

theorem room_caller (n a b c d : UInt64) : Room smallProcessor ((caller n a b c d).inStub 47) := by
  -- the arguments make no difference
  have hzero : Room smallProcessor ((caller 0 0 0 0 0).inStub 47) :=
    ⟨by decide, by decide, by decide, by decide⟩
  exact ⟨hzero.size, hzero.apart, hzero.gsFrame, hzero.gsReturn⟩

/-- Three arguments and a fourth that is the third one again. -/
theorem marshalled_same : ∃ m', Marshalled smallProcessor (caller 3 5 6 7 7) 47 3 5 6 7 7 m' :=
  (invokesystemcall_iff (linked_caller 3 5 6 7 7) (by decide) (by decide) (room_caller 3 5 6 7 7)
    (fun _ _ _ _ _ => rfl) (fun _ _ _ _ _ => rfl)).mpr rfl

/-- The fourth argument does not arrive. -/
theorem fourth_not_marshalled : Linked smallProcessor (caller 3 5 6 7 8) 47 ∧
    Room smallProcessor ((caller 3 5 6 7 8).inStub 47) ∧ (∀ n a k, smallProcessor.Keeps n a k) ∧
      ¬ ∃ m', Marshalled smallProcessor (caller 3 5 6 7 8) 47 3 5 6 7 8 m' := by
  refine ⟨linked_caller 3 5 6 7 8, room_caller 3 5 6 7 8, fun _ _ _ _ _ _ _ _ => rfl, ?_⟩
  rintro ⟨m₂, hmarshalled⟩
  obtain ⟨m₁, hrun⟩ := exists_marshalled (linked_caller 3 5 6 7 8) (by decide) (by decide)
    (room_caller 3 5 6 7 8) (fun _ _ _ _ _ => rfl) (fun _ _ _ _ _ => rfl)
  have hcall := Reaches.call_unique hrun.reaches hmarshalled.reaches hrun.calls hmarshalled.calls
  have hfourth : (7 : UInt64) = 8 := congrArg (fun c : Call => c.args.2.2.2) hcall
  exact absurd hfourth (by decide)

end Cutesugar.Kernel.Syscall
