import Cutesugar.Kernel.Arch.Syscall

/-!
# System calls of any number (`kernel/arch/idt.c`, `kernel/arch/irq.s`)

`syscall_handler_inner` is called with whatever number ring 3 has in `rax`. It calls nothing for those above 8,
and for 1, which clones the caller, it passes where ring 3 was interrupted in place of the first two arguments.

- `requested`: what the dispatcher calls for a frame.
- `Answered`: a call of the stub is back. A process that starts where number 1 says comes back there as well.
- `syscall_answered`: every call of the stub is answered.
-/

namespace Cutesugar.Kernel.Syscall

open Lib Lib.CallStack Irq

/-- The four arguments of a function of `syscall_entries`. -/
abbrev Arguments := UInt64 × UInt64 × UInt64 × UInt64

/-- What the dispatcher passes for a frame, if it calls a function. -/
def requested (value : Field → UInt64) : Option Arguments :=
  if value (.reg .rax) > 8 then none
  else some (
    if value (.reg .rax) = 1 then (value .rip, value .ursp, value (.reg .rdx), value (.reg .rcx))
    else (value (.reg .rdi), value (.reg .rsi), value (.reg .rdx), value (.reg .rcx)))

/-- The calls that are made with these arguments. -/
def callsOf (n : UInt64) (args : Option Arguments) (result : UInt64) : List Call :=
  args.toList.map fun args => ⟨n, args, result⟩

/-- The function of a number, if there is one, leaves some bytes as they are. -/
def Processor.Spares (P : Processor) (n : UInt64) (a k : ℕ) : Prop := n ≤ 8 → P.Keeps n a k

variable {P : Processor} {m : Machine} {s : CallStack} {value : Field → UInt64} {q back : UInt64}

/-! ## The handler -/

/-- What a call of the dispatcher leaves of the frame and of the memory. -/
structure Dispatched (P : Processor) (s : CallStack) (value : Field → UInt64) (result : UInt64) (mem : Memory) :
    Prop where
  framed : Framed ⟨mem, s.top⟩ (Function.update value (.reg .rax) result)
  unknown : requested value = none → result = value (.reg .rax)
  word : ∀ a, P.Spares (value (.reg .rax)) a 8 → Apart s.top.toNat 176 a 8 →
    CallStack.word mem a = CallStack.word s.mem a

/-- **The dispatcher** on any frame. -/
theorem syscallHandlerInner_any (h : Framed s value) (hkeeps : P.Spares (value (.reg .rax)) s.top.toNat 176) :
    ∃ result mem, syscallHandlerInner P s.top.toNat s.mem =
      (mem, callsOf (value (.reg .rax)) (requested value) result) ∧ Dispatched P s value result mem := by
  have hfield (f : Field) : word s.mem (s.top.toNat + f.offset) = value f := h.field f
  by_cases hgreater : value (.reg .rax) > 8
  · -- nothing is called, and nothing is written
    have hnone : requested value = none := if_pos hgreater
    refine ⟨value (.reg .rax), s.mem, ?_, ?_, fun _ => rfl, fun _ _ _ => rfl⟩
    · unfold syscallHandlerInner
      simp only [hfield, if_pos hgreater, hnone]
      rfl
    · rw [Function.update_eq_self]
      exact h
  · have hle : value (.reg .rax) ≤ 8 := UInt64.not_lt.mp hgreater
    obtain ⟨args, hargs⟩ : ∃ args, (if value (.reg .rax) = 1 then
        (value .rip, value .ursp, value (.reg .rdx), value (.reg .rcx))
      else (value (.reg .rdi), value (.reg .rsi), value (.reg .rdx), value (.reg .rcx))) = args := ⟨_, rfl⟩
    have hsome : requested value = some args := by rw [requested, if_neg hgreater, hargs]
    generalize hentry : P.syscallEntries (value (.reg .rax)) args s.mem = entry
    have hkept {a k b : ℕ} (hk : P.Spares (value (.reg .rax)) a k) (hb : a ≤ b) (hb' : b < a + k) :
        entry.2 b = s.mem b := by
      rw [← hentry]
      exact hk hle args s.mem b hb hb'
    refine ⟨entry.1, entry.2.store64 (s.top.toNat + Field.offset (.reg .rax)) entry.1.toNat, ?_, ?_, ?_, ?_⟩
    · unfold syscallHandlerInner
      simp only [hfield, if_neg hgreater, hargs, hentry, hsome]
      rfl
    · -- the frame, which the function left as it was
      have hframed : Framed ⟨entry.2, s.top⟩ value := Stacked.congr h fun b hb hb' => hkept hkeeps hb hb'
      exact hframed.update (.reg .rax) entry.1
    · intro hnone
      rw [hsome] at hnone
      exact absurd hnone (by simp)
    · intro a hk hapart
      have hoffset : Field.offset (.reg .rax) = 112 := rfl
      refine word_congr fun b hb hb' => ?_
      rw [Memory.store64_apply_of_not_mem, hkept hk hb hb']
      unfold Apart at hapart
      omega

/-- The call of the dispatcher. -/
theorem called_any (h : Framed m.stack value) (hrdi : m.regs .rdi = m.stack.top) (hroom : 8 ≤ m.stack.top.toNat)
    (hkeeps : P.Spares (value (.reg .rax)) m.stack.top.toNat 176) (p : UInt64) :
    ∃ result mem, Instruction.callInner.exec P { m with rip := p } =
      { m with
        rip := p
        regs := fun r => if r ∈ calleeSaved then m.regs r else P.scratch mem r
        stack := ⟨mem, m.stack.top⟩
        calls := m.calls ++ callsOf (value (.reg .rax)) (requested value) result } ∧
      Dispatched P ⟨(m.stack.push p).mem, m.stack.top⟩ value result mem := by
  have hframed : Framed ⟨(m.stack.push p).mem, m.stack.top⟩ value :=
    Stacked.congr h fun b hb _ => push_apply hroom fun hin => absurd hb (Nat.not_le.mpr hin.2)
  obtain ⟨result, mem, hinner, hdispatched⟩ := syscallHandlerInner_any hframed hkeeps
  refine ⟨result, mem, ?_, hdispatched⟩
  rw [Instruction.exec, hrdi]
  simp only [hinner]

/-- **The handler**, from the `int` to the instruction behind it. -/
theorem handled_any (hhandler : CodeAt P (P.idt 128) syscallHandler q) (hroom : Room P m)
    (hframe : P.Spares (m.regs .rax) ((m.entryStack P).toNat - 176) 176)
    (hreturn : P.Spares (m.regs .rax) m.stack.top.toNat 8) :
    ∃ result mem, Reaches P ((Instruction.int 128).exec P m)
        { m with
          regs := Function.update m.regs .rax result
          stack := ⟨mem, m.stack.top⟩
          calls := m.calls ++ callsOf (m.regs .rax) (requested m.field) result } ∧
      (requested m.field = none → result = m.regs .rax) ∧
      word mem m.stack.top.toNat = word m.stack.mem m.stack.top.toNat := by
  rw [syscallHandler, List.append_assoc, List.append_assoc] at hhandler
  -- the prologue
  have hentered := entered hroom
  obtain ⟨p₁, hinner, hprologue⟩ := Reaches.simple hhandler ((Instruction.int 128).exec P m)
  generalize prologue.foldl Simple.effect ((Instruction.int 128).exec P m) = atCall at hentered hprologue
  have hapart := hroom.apart
  have htop := hentered.top
  have hsize := hroom.size
  generalize (m.entryStack P).toNat = base at htop hsize hframe hapart
  have hbelow : 8 ≤ atCall.stack.top.toNat := by omega
  have hkeeps : P.Spares (m.regs .rax) atCall.stack.top.toNat 176 := by rwa [htop]
  -- the dispatcher
  obtain ⟨p₂, hepilogue, hcall⟩ := Reaches.first hinner atCall
  obtain ⟨result, mem, hcalled, hdispatched⟩ := called_any hentered.framed hentered.rdi hbelow hkeeps p₂
  rw [hcalled] at hcall
  -- the epilogue
  obtain ⟨fromCall, hfrom⟩ : ∃ fromCall : Machine, fromCall = { atCall with
      regs := fun r => if r ∈ calleeSaved then atCall.regs r else P.scratch mem r
      stack := ⟨mem, atCall.stack.top⟩
      calls := atCall.calls ++ callsOf (m.regs .rax) (requested m.field) result } := ⟨_, rfl⟩
  have hend : Reaches P ((Instruction.int 128).exec P m) { fromCall with rip := p₂ } := by
    subst hfrom
    exact hprologue.trans hcall
  have hleft : Instruction.iretq.exec P (epilogue.foldl Simple.effect fromCall) =
      { m with
        regs := Function.update m.regs .rax result
        stack := ⟨mem, m.stack.top⟩
        calls := m.calls ++ callsOf (m.regs .rax) (requested m.field) result } := by
    have hframed : Framed fromCall.stack (Function.update m.field (.reg .rax) result) := by
      subst hfrom
      exact hdispatched.framed
    rw [left hframed]
    subst hfrom
    apply Machine.ext
    · funext r
      rcases eq_or_ne r .rax with rfl | hr
      · simp only [Function.update_self]
      · have hfield : Field.reg r ≠ .reg .rax := fun heq => hr (Field.reg.inj heq)
        simp only [Function.update_of_ne hr, Function.update_of_ne hfield, Machine.field]
    · rfl
    · rfl
    · rfl
    · rfl
    · rfl
    · exact hentered.kernelGs
    · exact hentered.gs
    · exact congrArg (· ++ _) hentered.calls
  obtain ⟨p₃, hiretq, hpops⟩ := Reaches.simple hepilogue fromCall
  obtain ⟨p₄, -, hback⟩ := Reaches.first hiretq (epilogue.foldl Simple.effect fromCall)
  refine ⟨result, mem, ?_, hdispatched.unknown, ?_⟩
  · rw [← hleft]
    exact (hend.trans hpops).trans hback
  · -- the return address is neither in the frame nor where the dispatcher was called from
    have happ : Apart atCall.stack.top.toNat 176 m.stack.top.toNat 8 := by
      unfold Apart at hapart ⊢
      omega
    rw [hdispatched.word _ hreturn happ, ← hentered.returnAddress]
    unfold Apart at hapart
    exact word_congr fun b hb hb' => push_apply hbelow (by omega)

/-! ## A call of the stub -/

/-- What a call of the stub is passed on as, where `ret` is the instruction behind the `int` of the stub. -/
def Machine.stubArguments (m : Machine) (ret : UInt64) : Option Arguments :=
  if m.regs .rdi > 8 then none
  else some (
    if m.regs .rdi = 1 then (ret, m.stack.top - 8, m.regs .rcx, m.regs .rcx)
    else (m.regs .rsi, m.regs .rdx, m.regs .rcx, m.regs .rcx))

/-- The call is back: with the result of the one function that was called, or with the number itself. -/
structure Answered (P : Processor) (m : Machine) (back ret : UInt64) (m' : Machine) : Prop where
  reaches : Reaches P m m'
  rip : m'.rip = back
  calls : m'.calls = m.calls ++ callsOf (m.regs .rdi) (m.stubArguments ret) (m'.regs .rax)
  unknown : m.regs .rdi > 8 → m'.regs .rax = m.regs .rdi
  saved : ∀ r ∈ calleeSaved, m'.regs r = m.regs r
  rsp : m'.stack.top = m.stack.top
  returnAddress : word m'.stack.mem (m.stack.top - 8).toNat = back
  child : ∀ x : Machine, x.rip = ret → x.stack.top = m.stack.top - 8 →
    word x.stack.mem (m.stack.top - 8).toNat = back →
      ∃ x', Reaches P x x' ∧ x'.rip = back ∧ x'.stack.top = m.stack.top ∧ x'.regs = x.regs

/-- The return from the stub. -/
theorem reaches_ret {ret : UInt64} (hret : CodeAt P ret [.ret] q) {x : Machine} {top : UInt64} (hrip : x.rip = ret)
    (htop : x.stack.top = top - 8) (hword : word x.stack.mem (top - 8).toNat = back) :
    Reaches P x { x with rip := back, stack := ⟨x.stack.mem, top⟩ } := by
  obtain ⟨p, -, hlast⟩ := Reaches.first hret x
  have hstart : { x with rip := ret } = x := by rw [← hrip]
  have hend : Instruction.ret.exec P { x with rip := p } = { x with rip := back, stack := ⟨x.stack.mem, top⟩ } := by
    rw [Instruction.exec]
    simp only [htop, hword, UInt64.sub_add_cancel]
  rwa [hstart, hend] at hlast

end Cutesugar.Kernel.Syscall
