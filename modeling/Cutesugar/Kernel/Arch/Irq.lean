import Cutesugar.Kernel.Arch.Task
import Cutesugar.Lib.Stacks

/-!
# Entry, exit and switching (`kernel/arch/irq.s`)

The registers, the memory and the kernel stacks of one processor, and what the assembly of the
interrupt entry, the system call entry, `switch_task`, `switch_to_user` and `resume_user` does to
them. The stacks of the processes are blocks that `malloc` handed out, of 0x2000 bytes or, for a
clone, of 0x128; stack 0 is the one the kernel booted on, which `KernelLoadGdt` took `tss.rsp0`
from. A word in memory is a number or a place on a stack. Where a stack is full, a push goes on into
whatever lies behind its block.

The entries and exits are cut where an interrupt can come between: the fifteen pops with the
`swapgs` of an exit are one step and its `iretq` is another, and a switch is cut where `unlock`
enables the interrupts, between the load of the stack pointer and the pops. Whether interrupts are
enabled is not tracked, they may come before any step.

The code that an entry path or `switch_task` calls into is not modelled, it may compute anything and
use the stack (`run`, `push`, `pop`). The stack pointer that `syscall_handler` stores behind `gs` is
not read by any of these paths and left out.
-/

namespace Cutesugar.Kernel.Irq

open Lib

/-! ## Registers -/

inductive Reg where
  | rax | rbx | rcx | rdx | rbp | rsi | rdi | r8 | r9 | r10 | r11 | r12 | r13 | r14 | r15
  deriving DecidableEq

inductive Word where
  | value (n : ℕ)
  | place (p : Place)
  deriving DecidableEq

/-- What the processor works with: the general registers, and what `iretq` loads. -/
structure Context where
  regs : Reg → Word
  rip : Word
  cs : Word
  rflags : Word
  rsp : Word
  ss : Word

/-- The selectors of the kernel and of ring 3. -/
abbrev kernelCode : Word := .value 8
abbrev userCode : Word := .value 27
abbrev userData : Word := .value 35

/-- The order in which `isr_common` and `syscall_handler` push the registers. -/
def pushOrder : List Reg :=
  [.rax, .rbx, .rcx, .rdx, .rbp, .rsi, .rdi, .r8, .r9, .r10, .r11, .r12, .r13, .r14, .r15]

/-- The order in which `switch_task` pushes the callee-saved registers. -/
def calleeSaved : List Reg := [.rbx, .rbp, .r12, .r13, .r14, .r15]

/-- What the processor pushes when it is interrupted. -/
def iretWords (c : Context) : List Word := [c.ss, c.rsp, c.rflags, c.cs, c.rip]

/-- The frame of an entry path: two codes and the registers on top. -/
def frameWords (c : Context) (codes : List Word) : List Word :=
  iretWords c ++ codes ++ pushOrder.map c.regs

/-- What a call of `switch_task` leaves on the stack. -/
def switchWords (c : Context) : List Word := c.rip :: calleeSaved.map c.regs

/-- The flags with interrupts disabled. -/
def maskInterrupts : Word → Word
  | .value n => .value (n - (n &&& 0x200))
  | .place p => .place p

/-! ## The machine -/

/-- The processor, the memory and the kernel stacks. `rsps` are the fields `rsp` of the processes, in
the order of the ring, `swaps` counts the `swapgs` executed, `rsp0` is that of the TSS and `idt` has
the addresses of the handlers. -/
structure Machine where
  cpu : Context
  swaps : ℕ
  layout : StackLayout
  mem : ℕ → Word
  rsps : ℕ → Place
  count : ℕ
  current : ℕ
  rsp0 : Place
  idt : ℕ → Word
  resumeUser : Word

/-- The stack pointer in ring 0. -/
def Machine.top (m : Machine) : Place :=
  match m.cpu.rsp with
  | .place p => p
  | .value n => ⟨0, n⟩

/-- The word that is `n` words below the stack pointer, counted from 1. -/
def Machine.below (m : Machine) (n : ℕ) : Word := m.mem (m.layout.cell m.top - n)

/-- Where the processor pushes the frame of an interrupt: on the current stack in ring 0, else
at `tss.rsp0`. The stack pointer is aligned first, which skips `pad` words. -/
def Machine.entry (m : Machine) (pad : ℕ) : Place :=
  (if m.cpu.cs = kernelCode then m.top else m.rsp0).up pad

/-- An entry path: the processor pushes and loads, the path pushes the rest. -/
def Machine.enter (m : Machine) (vector pad : ℕ) (codes : List Word) (swap : Bool) : Machine :=
  { m with
    mem := m.layout.pushAt m.mem (m.entry pad) (frameWords m.cpu codes)
    swaps := m.swaps + swap.toNat
    cpu :=
      -- the handler gets a pointer to the frame
      { regs := Function.update m.cpu.regs .rdi
          (.place ((m.entry pad).up (frameWords m.cpu codes).length))
        rip := m.idt vector
        cs := kernelCode
        -- an interrupt gate
        rflags := maskInterrupts m.cpu.rflags
        rsp := .place ((m.entry pad).up (frameWords m.cpu codes).length)
        ss := if m.cpu.cs = kernelCode then m.cpu.ss else .value 0 } }

/-- The value a register has in the frame that the registers are popped from. -/
def Machine.popped (m : Machine) (r : Reg) : Word := m.below (15 - pushOrder.idxOf r)

/-- The fifteen pops of an exit, and the `swapgs` behind. -/
def Machine.popRegs (m : Machine) (swap : Bool) : Machine :=
  { m with
    swaps := m.swaps + swap.toNat
    cpu := { m.cpu with regs := m.popped, rsp := .place (m.top.down 15) } }

/-- `cmpq $8, 24(%rsp)` in the exit of `isr_common`, after the pops. -/
def Machine.savedKernel (m : Machine) : Bool := m.below (15 + 4) == kernelCode

/-- `add $16, %rsp` and `iretq`. -/
def Machine.iretq (m : Machine) : Machine :=
  { m with
    cpu :=
      { m.cpu with
        -- the two codes are passed over
        rip := m.below (2 + 1)
        cs := m.below (2 + 2)
        rflags := m.below (2 + 3)
        rsp := m.below (2 + 4)
        ss := m.below (2 + 5) } }

/-- `switch_to_user`: the frame it pushes is popped by its own `iretq`. -/
def Machine.switchToUser (m : Machine) : Machine :=
  let c : Context :=
    -- ring 3 goes on with the stack pointer of ring 0
    { regs := Function.update m.cpu.regs .rax m.cpu.rsp
      rip := m.cpu.regs .rdi
      cs := userCode
      rflags := m.cpu.rflags
      rsp := m.cpu.rsp
      ss := userData }
  { m with mem := m.layout.pushAt m.mem m.top (iretWords c), cpu := c }

/-- The process behind the current one. -/
def Machine.next (m : Machine) : ℕ := if m.current + 1 < m.count then m.current + 1 else 0

/-- `switch_task` as `KernelSwitchProcess` calls it, with the return address in `rip`, up to its call
of `unlock`, which runs on the stack of the next process. -/
def Machine.switchProcess (m : Machine) : Machine :=
  if m.count < 2 then m
  else
    -- `mov %rsp, 8(%rsi)` in the record of the process that is left
    let rsps := Function.update m.rsps m.current (m.top.up (switchWords m.cpu).length)
    { m with
      mem := m.layout.pushAt m.mem m.top (switchWords m.cpu)
      rsps := rsps
      current := m.next
      cpu := { m.cpu with rsp := .place (rsps m.next) } }

/-- The six pops of `switch_task`, and its `ret`. -/
def Machine.switchReturn (m : Machine) : Machine :=
  { m with
    cpu :=
      { m.cpu with
        regs := fun r =>
          if r ∈ calleeSaved then m.below (6 - calleeSaved.idxOf r) else m.cpu.regs r
        rip := m.below 7
        rsp := .place (m.top.down 7) } }

/-- A new process with an initial stack in a block of `room` words. -/
def Machine.create (m : Machine) (block room : ℕ) (words : List Word) : Machine :=
  { m with
    layout := m.layout.add block room
    mem := (m.layout.add block room).pushAt m.mem ⟨m.layout.count, 0⟩ words
    rsps := Function.update m.rsps m.count ⟨m.layout.count, words.length⟩
    count := m.count + 1 }

/-- `malloc(0x2000)` and `malloc(0x128)`, in words. -/
abbrev initialRoom : ℕ := 0x2000 / 8
abbrev clonedRoom : ℕ := 0x128 / 8

/-- Where a process of `KernelInitializeProcess` starts, on its stack. -/
def initialContext (rip : Word) (p : Place) : Context where
  regs _ := .value 0
  rip := rip
  cs := kernelCode
  rflags := .value 0
  rsp := .place p
  ss := .value 0

/-- Where a process of `KernelCloneProcess` starts in ring 3. -/
def clonedContext (rip userRsp : Word) : Context where
  regs _ := .value 0
  rip := rip
  cs := userCode
  rflags := .value 0x202
  rsp := userRsp
  ss := userData

/-- The initial stack of a process of `KernelInitializeProcess`. -/
def initialWords (rip : Word) : List Word := switchWords (initialContext rip ⟨0, 0⟩)

/-- The initial stack of a process of `KernelCloneProcess`. -/
def clonedWords (rip userRsp resumeUser : Word) : List Word :=
  frameWords (clonedContext rip userRsp) [.value 0, .value 0] ++ initialWords resumeUser

/-- These are the words that the creators push. -/
theorem initialWords_eq (rip : ℕ) :
    initialWords (.value rip) = (switchFrame rip).map Word.value := rfl

theorem clonedWords_eq (rip userRsp resumeUser : ℕ) :
    clonedWords (.value rip) (.value userRsp) (.value resumeUser) =
      (cloneFrame rip userRsp resumeUser).map Word.value := rfl

/-! ## Frames -/

/-- Where a path stands that has a frame on the stack: in the handler of an interrupt or of a
system call, before the pops of `resume_user` or of `switch_task`, or before an `iretq`. -/
inductive Stage where
  | isr
  | syscall
  | resume
  | iret
  | switch
  deriving DecidableEq

inductive Event where
  /-- code computes -/
  | run (regs : Reg → Word) (rip rflags : Word)
  /-- code in ring 3 moves its stack pointer -/
  | moveStack (rsp : Word)
  /-- code in ring 0 pushes, or calls -/
  | push (w : Word)
  | pop
  | interrupt (vector pad : ℕ)
  /-- the exit of `isr_common`, up to its `iretq` -/
  | leave
  | syscall (pad : ℕ)
  /-- `regs->rax` of the handler, and the exit of `syscall_handler` up to its `iretq` -/
  | leaveSyscall (result : Option Word)
  /-- `resume_user`, up to its `iretq` -/
  | resumeUser
  | iretq
  | switchToUser
  | switchProcess
  | switchReturn
  /-- `block` is where the block for the stack lies -/
  | initializeProcess (rip : Word) (block : ℕ)
  | cloneProcess (rip userRsp : Word) (block : ℕ)

/-- `regs->rax = result` in the frame of a system call. -/
def Machine.setResult (m : Machine) : Option Word → Machine
  | none => m
  | some w => { m with mem := m.layout.pushAt m.mem (m.top.down 15) [w] }

def Machine.step (m : Machine) : Event → Machine
  | .run regs rip rflags => { m with cpu := { m.cpu with regs := regs, rip := rip, rflags := rflags } }
  | .moveStack rsp => { m with cpu := { m.cpu with rsp := rsp } }
  | .push w =>
    { m with
      mem := m.layout.pushAt m.mem m.top [w]
      cpu := { m.cpu with rsp := .place (m.top.up 1) } }
  | .pop => { m with cpu := { m.cpu with rsp := .place (m.top.down 1) } }
  | .interrupt vector pad =>
    m.enter vector pad [.value 0, .value vector] (m.cpu.cs != kernelCode)
  | .leave => m.popRegs !m.savedKernel
  | .syscall pad => m.enter 128 pad [.value 0, .value 0] true
  | .leaveSyscall result => (m.setResult result).popRegs true
  | .resumeUser => m.popRegs true
  | .iretq => m.iretq
  | .switchToUser => m.switchToUser
  | .switchProcess => m.switchProcess
  | .switchReturn => m.switchReturn
  | .initializeProcess rip block => m.create block initialRoom (initialWords rip)
  | .cloneProcess rip userRsp block =>
    m.create block clonedRoom (clonedWords rip userRsp m.resumeUser)

end Cutesugar.Kernel.Irq
