import Cutesugar.Kernel.Arch.Syscall
import Cutesugar.Kernel.Arch.TaskPrivilege

/-!
# The first run of a process

The creators of a process write a kernel stack by hand, and `switch_task` and `resume_user` pop what
they find on it. Here both are in one memory of bytes: the words that the creators store, and the
instructions that load them.

`switch_task` reads the stack pointer from the record of the process. Until something switches to the
process this is the one its creator stored, unless the process is current already when it is created,
as the first one is: then the first switch is away from it, and replaces the stack pointer.

- `frame_stored`: the words in memory after a creation.
- `record_kept`: the record until the first switch to the process.
- `switchTask_spec`: what `switch_task` makes of a new stack.
- `first_run`: where a new process starts.
-/

namespace Cutesugar.Kernel.FirstRun

open Lib Lib.CallStack Syscall
open Irq (Reg calleeSaved)

/-! ## Words that the creators store -/

section Creation

variable {P : Mmu.Platform} {fuel resumeUser : ℕ} {s s' : State}

/-- `*--rsp = w` is a push. -/
theorem pushWords_eq (s : State) {rsp : ℕ} {ws : List ℕ} (hspace : rsp < 2 ^ 64)
    (hroom : 8 * ws.length ≤ rsp) (hws : ∀ w ∈ ws, w < 2 ^ 64) :
    (pushWords s rsp ws).1 = rsp - 8 * ws.length ∧
      (pushWords s rsp ws).2.mmu.mem =
        (CallStack.pushAll ⟨s.mmu.mem, UInt64.ofNat rsp⟩ (ws.map UInt64.ofNat)).mem := by
  induction ws generalizing s rsp with
  | nil => exact ⟨rfl, rfl⟩
  | cons w ws ih =>
    rw [List.length_cons] at hroom
    obtain ⟨hrsp, hmem⟩ := ih
      { s with mmu := { s.mmu with mem := s.mmu.mem.store64 (rsp - 8) w } }
      (show rsp - 8 < 2 ^ 64 by omega) (by omega) fun x hx => hws x (List.mem_cons_of_mem w hx)
    have htop : (UInt64.ofNat rsp).toNat = rsp := UInt64.toNat_ofNat_of_lt' hspace
    have hbelow : (UInt64.ofNat rsp - 8).toNat = rsp - 8 := by
      have h := toNat_sub (s := ⟨s.mmu.mem, UInt64.ofNat rsp⟩) (a := 8) (by rw [htop]; omega)
      rw [htop] at h
      exact h
    have hpush : CallStack.push ⟨s.mmu.mem, UInt64.ofNat rsp⟩ (UInt64.ofNat w) =
        ⟨s.mmu.mem.store64 (rsp - 8) w, UInt64.ofNat (rsp - 8)⟩ := by
      have hw : (UInt64.ofNat w).toNat = w :=
        UInt64.toNat_ofNat_of_lt' (hws w (List.mem_cons_self ..))
      rw [CallStack.push, hbelow, hw]
      congr 1
      rw [← hbelow, UInt64.ofNat_toNat]
    constructor
    · change (pushWords _ (rsp - 8) ws).1 = _
      rw [hrsp, List.length_cons]
      omega
    · change (pushWords _ (rsp - 8) ws).2.mmu.mem = _
      rw [hmem, List.map_cons]
      change _ = (CallStack.pushAll (CallStack.push ⟨s.mmu.mem, UInt64.ofNat rsp⟩ (UInt64.ofNat w))
        (ws.map UInt64.ofNat)).mem
      rw [hpush]

/-- Memory has these words from an address on, the last one pushed first. -/
def Frame (mem : Memory) (rsp : ℕ) (ws : List ℕ) : Prop :=
  Stacked ⟨mem, UInt64.ofNat rsp⟩ (ws.reverse.map UInt64.ofNat)

/-- **The words pushed** are in memory below the place they were pushed at, and the rest of the
memory is as before. -/
theorem pushWords_frame (s : State) {rsp : ℕ} {ws : List ℕ} (hspace : rsp < 2 ^ 64)
    (hroom : 8 * ws.length ≤ rsp) (hws : ∀ w ∈ ws, w < 2 ^ 64) :
    Frame (pushWords s rsp ws).2.mmu.mem (rsp - 8 * ws.length) ws ∧
      ∀ a, ¬ (rsp - 8 * ws.length ≤ a ∧ a < rsp) → (pushWords s rsp ws).2.mmu.mem a = s.mmu.mem a := by
  obtain ⟨-, hmem⟩ := pushWords_eq s hspace hroom hws
  have htop : (UInt64.ofNat rsp).toNat = rsp := UInt64.toNat_ofNat_of_lt' hspace
  have hlength : 8 * (ws.map UInt64.ofNat).length ≤ (UInt64.ofNat rsp).toNat := by
    rw [List.length_map, htop]
    exact hroom
  constructor
  · have hstacked := (stacked_nil ⟨s.mmu.mem, UInt64.ofNat rsp⟩).pushAll hlength
    have hend := pushAll_top (s := ⟨s.mmu.mem, UInt64.ofNat rsp⟩) hlength
    rw [List.length_map, htop] at hend
    rw [List.append_nil, ← List.map_reverse] at hstacked
    rw [Frame, hmem, ← hend, UInt64.ofNat_toNat]
    exact hstacked
  · intro a ha
    rw [hmem]
    apply pushAll_apply hlength
    rw [List.length_map, htop]
    exact ha

/-- The place of a new stack and of a new record. -/
abbrev newTask (s : State) : ℕ := s.blocks (s.mallocs + 1)

abbrev newStack (s : State) : ℕ := s.blocks (s.mallocs + 2)

/-- What `KernelInitializeProcess` leaves in memory and in the record. -/
theorem kernelInitializeProcess_frame {rip permissions : ℕ}
    (h : kernelInitializeProcess P fuel s rip permissions = some s')
    (hspace : newStack s + 0x2000 < 2 ^ 64) (hrip : rip < 2 ^ 64) :
    (s'.tasks (newTask s)).rsp = newStack s + 0x2000 - 56 ∧
      Frame s'.mmu.mem (newStack s + 0x2000 - 56) (switchFrame rip) := by
  have hws : ∀ w ∈ switchFrame rip, w < 2 ^ 64 := by
    intro w hw
    simp only [switchFrame, List.mem_cons, List.not_mem_nil, or_false] at hw
    omega
  -- both branches push the same words, in a state of their own
  suffices hpush : ∃ s₁, s'.mmu.mem = (pushWords s₁ (newStack s + 0x2000) (switchFrame rip)).2.mmu.mem ∧
      (s'.tasks (newTask s)).rsp = (pushWords s₁ (newStack s + 0x2000) (switchFrame rip)).1 by
    obtain ⟨s₁, hmem, hrsp⟩ := hpush
    have hroom : 8 * (switchFrame rip).length ≤ newStack s + 0x2000 := by
      change 56 ≤ _
      omega
    rw [hmem, hrsp]
    exact ⟨(pushWords_eq s₁ hspace hroom hws).1, (pushWords_frame s₁ hspace hroom hws).1⟩
  by_cases hfirst : s.firstTask = 0
  · obtain ⟨td, s₁, cwd, -, -, rfl⟩ := kernelInitializeProcess_first hfirst h
    refine ⟨s₁, rfl, ?_⟩
    dsimp only
    rw [Function.update_self]
  · obtain ⟨last, td, s₁, cwd, -, -, -, rfl⟩ := kernelInitializeProcess_next hfirst h
    refine ⟨nextState P s s₁, rfl, ?_⟩
    dsimp only
    rw [Function.update_self]

/-- The memory that `KernelCloneProcess` copies the stack of its caller in. -/
def memoryAtCopy (P : Mmu.Platform) (s : State) : Memory :=
  (Mmu.kernelNewPageStructure P s.mmu ((s.cr3 + P.hhdmOffset) % 2 ^ 64)).2.mem

/-- The stack pointer of a clone in ring 3: the end of the block requested for its stack. -/
abbrev cloneStack (s : State) : ℕ := s.blocks (s.mallocs + 4) + 0x2000

/-- The page for the root of the address space of a clone. -/
abbrev newRoot (P : Mmu.Platform) (s : State) : ℕ :=
  (s.mmu.memList s.mmu.stackPosition + P.hhdmOffset) % 2 ^ 64

/-- Besides the new root the memory is still that before the call. -/
theorem memoryAtCopy_eq {a : ℕ} (ha : ¬ (newRoot P s ≤ a ∧ a < newRoot P s + 4096)) :
    memoryAtCopy P s a = s.mmu.mem a := by
  simp only [newRoot] at ha
  simp only [memoryAtCopy, Mmu.kernelNewPageStructure, Mmu.kernelAllocateFrame]
  rw [Memory.memcpy_apply_of_not_mem (by omega)]
  split_ifs
  · rw [Memory.memcpy_apply_of_not_mem (by omega), Memory.memset_apply_of_not_mem (by omega)]
  · rw [Memory.memset_apply_of_not_mem (by omega)]

/-- What `KernelCloneProcess` leaves in memory and in the record. -/
theorem kernelCloneProcess_frame {rip ursp id : ℕ}
    (h : kernelCloneProcess P fuel resumeUser s rip ursp = some (id, s'))
    (hspace : newStack s + 0x128 < 2 ^ 64) (hstack : cloneStack s < 2 ^ 64) (hrip : rip < 2 ^ 64)
    (hresume : resumeUser < 2 ^ 64) (hroom : 232 ≤ newStack s + 0x128)
    (hapart : Apart (newStack s) 0x128 (cloneStack s) 2048) :
    (s'.tasks (newTask s)).rsp = newStack s + 0x128 - 232 ∧
      Frame s'.mmu.mem (newStack s + 0x128 - 232) (cloneFrame rip (cloneStack s) resumeUser) ∧
      ∀ i < 2048, s'.mmu.mem (cloneStack s + i) = memoryAtCopy P s (ursp + i) := by
  have hws : ∀ w ∈ cloneFrame rip (cloneStack s) resumeUser, w < 2 ^ 64 := by
    intro w hw
    simp only [cloneFrame, switchFrame, List.mem_append, List.mem_cons, List.mem_replicate,
      List.not_mem_nil, or_false] at hw
    omega
  have hlength : (cloneFrame rip (cloneStack s) resumeUser).length = 29 := rfl
  -- the copy is made in front of the pushes
  suffices hpush : ∃ s₁, s₁.mmu.mem = (memoryAtCopy P s).memcpy (cloneStack s) ursp 2048 ∧
      s'.mmu.mem = (pushWords s₁ (newStack s + 0x128)
        (cloneFrame rip (cloneStack s) resumeUser)).2.mmu.mem ∧
      (s'.tasks (newTask s)).rsp = (pushWords s₁ (newStack s + 0x128)
        (cloneFrame rip (cloneStack s) resumeUser)).1 by
    obtain ⟨s₁, hcopy, hmem, hrsp⟩ := hpush
    have hroom' : 8 * (cloneFrame rip (cloneStack s) resumeUser).length ≤ newStack s + 0x128 := by
      rw [hlength]
      exact hroom
    obtain ⟨hframe, hrest⟩ := pushWords_frame s₁ hspace hroom' hws
    rw [hmem, hrsp]
    refine ⟨(pushWords_eq s₁ hspace hroom' hws).1, hframe, fun i hi => ?_⟩
    unfold Apart at hapart
    rw [hrest _ (by rw [hlength]; omega), hcopy, Memory.memcpy, if_pos (by omega),
      Nat.add_sub_cancel_left]
  obtain ⟨-, -, last, td, s₁, cwd, -, htoken, -, rfl⟩ := kernelCloneProcess_some h
  obtain ⟨-, tokens, tokDict, hs₁, -⟩ := kernelGetTokenForProcess_spec htoken
  have hblock : s₁.blocks s₁.mallocs + 0x2000 = cloneStack s := by rw [hs₁]
  rw [hblock]
  refine ⟨cloneState P s s₁ ursp, ?_, ?_, ?_⟩
  · rw [hs₁]
    rfl
  · dsimp only
  · dsimp only
    rw [Function.update_self]

/-! ## The record until the first switch -/

/-- A call leaves the records of the processes that are not current. -/
theorem tasks_step (hb : Blocks s) {c : TaskCall} {i : ℕ} (hi : i < s.mallocs)
    (hcurrent : getCurrentProcess s ≠ s.blocks i) :
    (c.step P fuel resumeUser s).tasks (s.blocks i) = s.tasks (s.blocks i) ∧
      (c.step P fuel resumeUser s).blocks = s.blocks ∧
      s.mallocs ≤ (c.step P fuel resumeUser s).mallocs := by
  by_cases hret : c.Returns P fuel resumeUser s
  · by_cases hc : c.creates
    · obtain ⟨permissions, ha, -⟩ := TaskCall.allocated hc hret
      obtain ⟨t, htasks, -⟩ := ha.tasks
      have hmallocs := ha.mallocs
      -- the record that is written is a new block
      have hne : s.blocks i ≠ s.blocks (s.mallocs + 1) := by
        intro heq
        have := hb.injective heq
        omega
      rw [htasks, Function.update_of_ne hne]
      exact ⟨rfl, ha.blocks, by omega⟩
    · cases c with
      | initializeProcess rip permissions => exact absurd rfl hc
      | cloneProcess rip ursp => exact absurd rfl hc
      | switchProcess rsp =>
        change (kernelSwitchProcess s rsp).tasks _ = _ ∧ (kernelSwitchProcess s rsp).blocks = _ ∧
          _ ≤ (kernelSwitchProcess s rsp).mallocs
        rcases kernelSwitchProcess_spec s rsp with ⟨heq, -⟩ | ⟨hcur, -, prev, t, cr3, heq, -⟩
        · rw [heq]
          exact ⟨rfl, rfl, le_rfl⟩
        · -- only the record of the current process is written
          rw [getCurrentProcess, if_neg hcur] at hcurrent
          rw [heq]
          exact ⟨Function.update_of_ne hcurrent.symm _ _, rfl, le_rfl⟩
  · have hsame : c.step P fuel resumeUser s = s := by
      have hnone : c.result P fuel resumeUser s = none := by
        simpa [TaskCall.Returns] using hret
      rw [TaskCall.step, hnone]
      rfl
    rw [hsame]
    exact ⟨rfl, rfl, le_rfl⟩

/-- **The record is kept** as long as the process is not current. -/
theorem record_kept (hb : Blocks s) {i : ℕ} (hi : i < s.mallocs) {calls : List TaskCall}
    (hbefore : Everywhere (TaskCall.step P fuel resumeUser)
      (fun t => getCurrentProcess t ≠ s.blocks i) s calls) :
    (run (TaskCall.step P fuel resumeUser) s calls).tasks (s.blocks i) = s.tasks (s.blocks i) := by
  induction calls generalizing s with
  | nil => rfl
  | cons c calls ih =>
    obtain ⟨hcurrent, hrest⟩ := hbefore
    obtain ⟨htask, hblocks, hmallocs⟩ := tasks_step (c := c) hb hi hcurrent
    rw [run_cons, ← htask, ← hblocks]
    apply ih
    · exact ⟨by rw [hblocks]; exact hb.nonnull, by rw [hblocks]; exact hb.injective⟩
    · omega
    · rw [hblocks]
      exact hrest

end Creation

/-! ## `switch_task` and `resume_user` -/

/-- The lock, what the compiled `unlock` leaves in the registers and on the stack, of which it uses
`depth` bytes, and the address behind the call of it. -/
structure Unlock where
  spinlock : UInt64
  returnAddress : UInt64
  scratch : Memory → Reg → UInt64
  depth : ℕ
  used : CallStack → Memory
  used_eq : ∀ s a, ¬ (s.top.toNat - depth ≤ a ∧ a < s.top.toNat) → used s a = s.mem a

/-- `unlock`. -/
def Unlock.call (K : Unlock) (s : CallStack) : Memory :=
  (K.used (s.push K.returnAddress)).store K.spinlock.toNat 1 0

/-- `switch_task`, with the record of the next process in `rdi` and that of the previous one in
`rsi`. -/
def switchTask (K : Unlock) (m : Machine) : Machine :=
  let m := (calleeSaved.map .pushq).foldl Simple.effect m
  -- `mov %rsp, 8(%rsi)` and `mov 8(%rdi), %rsp`
  let mem := m.stack.mem.store64 (m.regs .rsi + 8).toNat m.stack.top.toNat
  let stack : CallStack := ⟨mem, word mem (m.regs .rdi + 8).toNat⟩
  let mem := K.call stack
  let m := { m with
    regs := fun r => if r ∈ calleeSaved then m.regs r else K.scratch mem r
    stack := ⟨mem, stack.top⟩ }
  let m := (calleeSaved.reverse.map .popq).foldl Simple.effect m
  -- `ret`
  { m with rip := word m.stack.mem m.stack.top.toNat, stack := ⟨m.stack.mem, m.stack.top + 8⟩ }

/-- `resume_user` up to its `iretq`: what `syscall_handler` does behind its call. -/
def resumeUserCode : List Simple := popOrder.map .popq ++ [.addRsp 16, .swapgs]

section Switch

variable {K : Unlock} {m : Machine} {ws : List UInt64} {v rsp : UInt64}

/-- What `switch_task` writes while it is still on the old stack. -/
def Saves (m : Machine) (a : ℕ) : Prop :=
  m.stack.top.toNat - 48 ≤ a ∧ a < m.stack.top.toNat ∨
    (m.regs .rsi + 8).toNat ≤ a ∧ a < (m.regs .rsi + 8).toNat + 8

/-- What the call of `unlock` writes. -/
def Unlocks (K : Unlock) (rsp : UInt64) (a : ℕ) : Prop :=
  rsp.toNat - 8 - K.depth ≤ a ∧ a < rsp.toNat ∨ a = K.spinlock.toNat

/-- The memory on the new stack. -/
def savedMemory (m : Machine) : Memory :=
  let pushed := m.stack.pushAll (calleeSaved.map m.regs)
  pushed.mem.store64 (m.regs .rsi + 8).toNat pushed.top.toNat

theorem saved_eq (hroom : 48 ≤ m.stack.top.toNat) {a : ℕ} (ha : ¬ Saves m a) :
    savedMemory m a = m.stack.mem a := by
  have hlength : (calleeSaved.map m.regs).length = 6 := rfl
  unfold Saves at ha
  rw [savedMemory, Memory.store64_apply_of_not_mem (by omega)]
  apply pushAll_apply
  · rw [hlength]
    exact hroom
  · rw [hlength]
    omega

theorem call_eq {s : CallStack} (hroom : 8 ≤ s.top.toNat) {a : ℕ} (ha : ¬ Unlocks K s.top a) :
    K.call s a = s.mem a := by
  have htop : (s.push K.returnAddress).top.toNat = s.top.toNat - 8 := push_top hroom
  unfold Unlocks at ha
  rw [Unlock.call, Memory.store_apply_of_not_mem (by omega), K.used_eq _ _ (by rw [htop]; omega),
    push_apply hroom (by omega)]

/-- **Specification of `switch_task`** for a stack that the creator of a process wrote: it returns to
the word behind six null words, with these in the callee-saved registers. -/
theorem switchTask_spec (hroom : 48 ≤ m.stack.top.toNat) (hrsp : 8 ≤ rsp.toNat)
    (hrecord : word m.stack.mem (m.regs .rdi + 8).toNat = rsp)
    (hkept : ∀ a, (m.regs .rdi + 8).toNat ≤ a → a < (m.regs .rdi + 8).toNat + 8 → ¬ Saves m a)
    (hstack : Stacked ⟨m.stack.mem, rsp⟩ (List.replicate 6 0 ++ v :: ws))
    (hframe : ∀ a, rsp.toNat ≤ a → a < rsp.toNat + 8 * (7 + ws.length) →
      ¬ Saves m a ∧ ¬ Unlocks K rsp a) :
    (switchTask K m).rip = v ∧ (∀ r ∈ calleeSaved, (switchTask K m).regs r = 0) ∧
      (switchTask K m).stack.top = rsp + 56 ∧ (switchTask K m).stack.Stacked ws ∧
      ∀ a, ¬ Saves m a → ¬ Unlocks K rsp a → (switchTask K m).stack.mem a = m.stack.mem a := by
  have hload : word (savedMemory m) (m.regs .rdi + 8).toNat = rsp := by
    rw [← hrecord]
    exact word_congr fun a ha ha' => saved_eq hroom (hkept a ha ha')
  -- memory and registers behind the call
  let mem := K.call ⟨savedMemory m, rsp⟩
  let called : Machine := { m with
    regs := fun r => if r ∈ calleeSaved then m.regs r else K.scratch mem r
    stack := ⟨mem, rsp⟩ }
  have hmem {a : ℕ} (hs : ¬ Saves m a) (hu : ¬ Unlocks K rsp a) : mem a = m.stack.mem a := by
    have hcall := call_eq (s := ⟨savedMemory m, rsp⟩) hrsp hu
    exact hcall.trans (saved_eq hroom hs)
  have hlength : (List.replicate 6 (0 : UInt64) ++ v :: ws).length = 7 + ws.length := by
    rw [List.length_append, List.length_cons, List.length_replicate]
    omega
  have hzeros : List.replicate 6 (0 : UInt64) = calleeSaved.reverse.map fun _ => 0 := rfl
  have hnew : Stacked ⟨mem, rsp⟩ (List.replicate 6 0 ++ v :: ws) := by
    apply hstack.congr
    intro a ha ha'
    rw [hlength] at ha'
    obtain ⟨hs, hu⟩ := hframe a ha ha'
    exact hmem hs hu
  rw [hzeros] at hnew
  obtain ⟨top, hrest, hpops⟩ := foldl_popq (m := called) hnew
  have hswitch : switchTask K m = { called with
      regs := fun r => if r ∈ calleeSaved.reverse then 0 else called.regs r
      rip := word mem top.toNat
      stack := ⟨mem, top + 8⟩ } := by
    have hend : switchTask K m =
        let popped := (calleeSaved.reverse.map .popq).foldl Simple.effect called
        { popped with
          rip := word popped.stack.mem popped.stack.top.toNat
          stack := ⟨popped.stack.mem, popped.stack.top + 8⟩ } := by
      unfold switchTask
      rw [foldl_pushq]
      simp only [called, mem, ← hload]
      rfl
    rw [hend, hpops]
  have htop : top + 8 = rsp + 56 := by
    have hsum : rsp + 8 + 8 + 8 + 8 + 8 + 8 = top := congrArg (fun m => m.stack.top) hpops
    rw [← hsum]
    simp only [UInt64.add_assoc]
    rfl
  rw [hswitch]
  refine ⟨hrest.head, fun r hr => ?_, htop, hrest.tail, fun a hs hu => hmem hs hu⟩
  exact if_pos (List.mem_reverse.mpr hr)

/-- A clone passes through `resume_user`, and its `iretq` loads what the creator stored. -/
theorem resumeUser_spec {P : Processor} {p q rip userRsp : UInt64}
    (hcode : CodeAt P p (resumeUserCode.map .simple ++ [.iretq]) q) (hrip : m.rip = p)
    (hstack : m.stack.Stacked (List.replicate 17 0 ++ [rip, 27, 0x202, userRsp, 35])) :
    ∃ m', Reaches P m m' ∧ m'.rip = rip ∧ m'.cs = 27 ∧ m'.rflags = 0x202 ∧
      m'.stack = ⟨m.stack.mem, userRsp⟩ ∧ m'.ss = 35 ∧ ∀ r, m'.regs r = 0 := by
  -- the words are a frame of `syscall_handler`
  let value : Field → UInt64 := fun f => match f with
    | .rip => rip
    | .cs => 27
    | .rflags => 0x202
    | .ursp => userRsp
    | .ss => 35
    | _ => 0
  have hframed : Framed m.stack value := hstack
  obtain ⟨p₁, hiretq, hpops⟩ := Reaches.simple hcode m
  obtain ⟨p₂, -, hlast⟩ := Reaches.first hiretq (resumeUserCode.foldl Simple.effect m)
  have hleft : Instruction.iretq.exec P (resumeUserCode.foldl Simple.effect m) = _ := left hframed
  subst hrip
  have hrun : Reaches P m (Instruction.iretq.exec P (resumeUserCode.foldl Simple.effect m)) :=
    hpops.trans hlast
  rw [hleft] at hrun
  exact ⟨_, hrun, rfl, rfl, rfl, rfl, rfl, fun r => rfl⟩

end Switch

/-! ## The first switch to a new process -/

/-- The first switch to a process: its record and the bytes that belong to it are as the creation left
them, and the switch writes elsewhere, on the old stack, in the record of the previous process, below
the words of the new stack, and in the lock. -/
structure FirstSwitch (K : Unlock) (m : Machine) (created : Memory) (task rsp : ℕ)
    (owned : ℕ → Prop) : Prop where
  next : (m.regs .rdi + 8).toNat = task + 8
  record : word m.stack.mem (task + 8) = UInt64.ofNat rsp
  recordKept : ∀ a, task + 8 ≤ a → a < task + 16 → ¬ Saves m a
  room : 48 ≤ m.stack.top.toNat
  kept : ∀ a, owned a → m.stack.mem a = created a
  apart : ∀ a, owned a → ¬ Saves m a ∧ ¬ Unlocks K (UInt64.ofNat rsp) a

/-- The bytes between two addresses. -/
def Between (lo hi a : ℕ) : Prop := lo ≤ a ∧ a < hi

section FirstRun

variable {P : Mmu.Platform} {fuel resumeUser : ℕ} {s s' : State} {K : Unlock} {m : Machine}

/-- The switch finds the words that the creator stored. -/
theorem FirstSwitch.arrives {created : Memory} {task rsp : ℕ} {owned : ℕ → Prop} {rip : ℕ}
    {ws : List ℕ} (h : FirstSwitch K m created task rsp owned) (hrsp : 8 ≤ rsp) (hspace : rsp < 2 ^ 64)
    (hframe : Frame created rsp (ws ++ switchFrame rip))
    (howned : ∀ a, rsp ≤ a → a < rsp + 8 * (7 + ws.length) → owned a) :
    (switchTask K m).rip = UInt64.ofNat rip ∧ (∀ r ∈ calleeSaved, (switchTask K m).regs r = 0) ∧
      (switchTask K m).stack.top = UInt64.ofNat (rsp + 56) ∧
      (switchTask K m).stack.Stacked (ws.reverse.map UInt64.ofNat) ∧
      ∀ a, owned a → (switchTask K m).stack.mem a = created a := by
  have htop : (UInt64.ofNat rsp).toNat = rsp := UInt64.toNat_ofNat_of_lt' hspace
  have hwords : (ws ++ switchFrame rip).reverse.map UInt64.ofNat =
      List.replicate 6 0 ++ UInt64.ofNat rip :: ws.reverse.map UInt64.ofNat := by
    simp [switchFrame]
  rw [Frame, hwords] at hframe
  have hlength : (ws.reverse.map UInt64.ofNat).length = ws.length := by simp
  obtain ⟨hrip, hregs, hstack, hrest, hmem⟩ := switchTask_spec (K := K) h.room (by rw [htop]; exact hrsp)
    (by rw [h.next]; exact h.record) (by rw [h.next]; exact h.recordKept)
    (hframe.congr fun a ha ha' => h.kept a (howned a (by rwa [htop] at ha) (by
      rw [htop] at ha'
      simp at ha'
      omega)))
    (fun a ha ha' => h.apart a (howned a (by rwa [htop] at ha) (by
      rw [htop, hlength] at ha'
      exact ha')))
  refine ⟨hrip, hregs, ?_, hrest, fun a ha => ?_⟩
  · rw [hstack, UInt64.ofNat_add]
    rfl
  · obtain ⟨hs, hu⟩ := h.apart a ha
    rw [hmem a hs hu, h.kept a ha]

/-- No call of the run makes the process current. -/
def NotEntered (P : Mmu.Platform) (fuel resumeUser : ℕ) (task : ℕ) (s : State)
    (calls : List TaskCall) : Prop :=
  Along (TaskCall.step P fuel resumeUser)
    (fun t c => getCurrentProcess (c.step P fuel resumeUser t) = task → getCurrentProcess t = task)
    s calls

instance (P : Mmu.Platform) (fuel resumeUser task : ℕ) (s : State) (calls : List TaskCall) :
    Decidable (NotEntered P fuel resumeUser task s calls) :=
  inferInstanceAs (Decidable (Along _ _ _ _))

theorem NotEntered.everywhere {task : ℕ} {calls : List TaskCall}
    (h : NotEntered P fuel resumeUser task s calls) (hcurrent : getCurrentProcess s ≠ task) :
    Everywhere (TaskCall.step P fuel resumeUser) (fun t => getCurrentProcess t ≠ task) s calls :=
  Along.everywhere h hcurrent (fun _ _ hne hc heq => hne (hc heq)) fun _ hne => hne

/-- A process that is not the first one is not current when it is created. -/
theorem new_not_current {ps : List ℕ} (h : RingInv s ps) (hfirst : s.firstTask ≠ 0) {c : TaskCall}
    (hc : c.creates) (hret : c.Returns P fuel resumeUser s) :
    getCurrentProcess (c.step P fuel resumeUser s) ≠ newTask s := by
  have hne := h.ne_nil hfirst
  have hmem := h.current hne
  obtain ⟨permissions, ha, -⟩ := TaskCall.allocated hc hret
  have hnode := ha.oldNode s.currentTask (h.node_ne hmem le_rfl)
  rw [getCurrentProcess, (h.step hret).2 hc hne, if_neg (h.nonnull hmem), hnode]
  exact h.task_ne hmem (Nat.le_succ _)

/-- The record of such a process until something switches to it. -/
theorem record_of_new {ps : List ℕ} (h : RingInv s ps) (hfirst : s.firstTask ≠ 0) {c : TaskCall}
    (hc : c.creates) (hret : c.Returns P fuel resumeUser s) {after : List TaskCall}
    (hafter : NotEntered P fuel resumeUser (newTask s) (c.step P fuel resumeUser s) after) :
    (run (TaskCall.step P fuel resumeUser) (c.step P fuel resumeUser s) after).tasks (newTask s) =
      (c.step P fuel resumeUser s).tasks (newTask s) := by
  obtain ⟨permissions, ha, -⟩ := TaskCall.allocated hc hret
  have hmallocs := ha.mallocs
  have hblock : newTask s = (c.step P fuel resumeUser s).blocks (s.mallocs + 1) := by
    rw [ha.blocks]
  have hbefore := hafter.everywhere (new_not_current h hfirst hc hret)
  rw [hblock] at hbefore ⊢
  apply record_kept
  · exact (h.step hret).1.blocks
  · omega
  · exact hbefore

/-- Where a process of `KernelInitializeProcess` is when `switch_task` returns. -/
structure Started (m : Machine) (rip top : ℕ) : Prop where
  rip : m.rip = UInt64.ofNat rip
  regs : ∀ r ∈ calleeSaved, m.regs r = 0
  rsp : m.stack.top = UInt64.ofNat top

/-- Where a clone is behind the `iretq` of `resume_user`. -/
structure Resumed (m : Machine) (rip userRsp : ℕ) : Prop where
  rip : m.rip = UInt64.ofNat rip
  cs : m.cs = 27
  rflags : m.rflags = 0x202
  rsp : m.stack.top = UInt64.ofNat userRsp
  ss : m.ss = 35
  regs : ∀ r, m.regs r = 0

/-- The bytes of a process of `KernelInitializeProcess`: the words on its stack. -/
def initializedBytes (s : State) : ℕ → Prop :=
  Between (newStack s + 0x2000 - 56) (newStack s + 0x2000)

/-- The bytes of a clone: the words on its kernel stack, and the copy of the stack of its parent. -/
def clonedBytes (s : State) (a : ℕ) : Prop :=
  Between (newStack s + 0x128 - 232) (newStack s + 0x128) a ∨
    Between (cloneStack s) (cloneStack s + 2048) a

/-- The words of a clone under those for `switch_task` are those for `resume_user`. -/
theorem cloneFrame_eq (rip stack resumeUser : ℕ) :
    ∃ ws, cloneFrame rip stack resumeUser = ws ++ switchFrame resumeUser ∧ ws.length = 22 ∧
      ws.reverse.map UInt64.ofNat =
        List.replicate 17 0 ++ [UInt64.ofNat rip, 27, 0x202, UInt64.ofNat stack, 35] :=
  ⟨[35, stack, 0x202, 27, rip] ++ List.replicate 17 0, rfl, rfl, rfl⟩

/-- A process of `KernelInitializeProcess` starts where it should. -/
theorem initialized_starts {ps : List ℕ} (h : RingInv s ps) (hfirst : s.firstTask ≠ 0)
    {rip permissions : ℕ}
    (hret : (TaskCall.initializeProcess rip permissions).Returns P fuel resumeUser s)
    (hs' : (TaskCall.initializeProcess rip permissions).step P fuel resumeUser s = s')
    {after : List TaskCall} (hafter : NotEntered P fuel resumeUser (newTask s) s' after)
    (hrip : rip < 2 ^ 64) (hspace : newStack s + 0x2000 < 2 ^ 64)
    (hswitch : FirstSwitch K m s'.mmu.mem (newTask s)
      ((run (TaskCall.step P fuel resumeUser) s' after).tasks (newTask s)).rsp
      (initializedBytes s)) :
    Started (switchTask K m) rip (newStack s + 0x2000) ∧
      (s'.tasks (newTask s)).rsp = newStack s + 0x2000 - 56 := by
  subst hs'
  rw [record_of_new h hfirst rfl hret hafter] at hswitch
  obtain ⟨s', hresult⟩ := Option.isSome_iff_exists.mp hret
  have hstep : (TaskCall.initializeProcess rip permissions).step P fuel resumeUser s = s' := by
    rw [TaskCall.step, hresult]
    rfl
  rw [hstep] at hswitch ⊢
  obtain ⟨hrsp, hframe⟩ := kernelInitializeProcess_frame hresult hspace hrip
  rw [hrsp] at hswitch
  have hframe' : Frame s'.mmu.mem (newStack s + 0x2000 - 56) ([] ++ switchFrame rip) := hframe
  obtain ⟨harrived, hregs, htop, -⟩ := hswitch.arrives (by omega) (by omega) hframe'
    fun a ha ha' => ⟨ha, by
      simp only [List.length_nil] at ha'
      omega⟩
  have hend : newStack s + 0x2000 - 56 + 56 = newStack s + 0x2000 := by omega
  rw [hend] at htop
  exact ⟨⟨harrived, hregs, htop⟩, hrsp⟩

/-- A clone starts where it should. -/
theorem cloned_starts {ps : List ℕ} (h : RingInv s ps) {rip ursp : ℕ}
    (hret : (TaskCall.cloneProcess rip ursp).Returns P fuel resumeUser s)
    (hs' : (TaskCall.cloneProcess rip ursp).step P fuel resumeUser s = s')
    {after : List TaskCall} (hafter : NotEntered P fuel resumeUser (newTask s) s' after)
    (hrip : rip < 2 ^ 64) (hresume : resumeUser < 2 ^ 64) (hspace : newStack s + 0x128 < 2 ^ 64)
    (hstack : cloneStack s < 2 ^ 64) (hapart : Apart (newStack s) 0x128 (cloneStack s) 2048)
    (hswitch : FirstSwitch K m s'.mmu.mem (newTask s)
      ((run (TaskCall.step P fuel resumeUser) s' after).tasks (newTask s)).rsp (clonedBytes s))
    {C : Processor} {q : UInt64}
    (hcode : CodeAt C (UInt64.ofNat resumeUser) (resumeUserCode.map .simple ++ [.iretq]) q) :
    (switchTask K m).rip = UInt64.ofNat resumeUser ∧
      (∃ m', Reaches C (switchTask K m) m' ∧ Resumed m' rip (cloneStack s) ∧
        ∀ i < 2048, m'.stack.mem (cloneStack s + i) = memoryAtCopy P s (ursp + i)) ∧
      (s'.tasks (newTask s)).rsp = newStack s + 0x128 - 232 := by
  subst hs'
  obtain ⟨s', hresult⟩ := Option.isSome_iff_exists.mp hret
  have hstep : (TaskCall.cloneProcess rip ursp).step P fuel resumeUser s = s' := by
    rw [TaskCall.step, hresult]
    rfl
  obtain ⟨⟨id, s₁⟩, hclone, rfl⟩ := Option.map_eq_some_iff.mp hresult
  rw [record_of_new h (kernelCloneProcess_spec hclone).1 rfl hret hafter, hstep] at hswitch
  rw [hstep]
  -- the frame is built as bytes of the memory, `switch_task` pops its first seven words
  obtain ⟨hrsp, hframe, hcopy⟩ := kernelCloneProcess_frame hclone hspace hstack hrip hresume
    (by omega) hapart
  have hsnd : (id, s₁).2 = s₁ := rfl
  rw [hsnd] at hswitch ⊢
  rw [hrsp] at hswitch
  generalize s₁.mmu.mem = created at hframe hcopy hswitch
  obtain ⟨ws, hws, hlength, hwords⟩ := cloneFrame_eq rip (cloneStack s) resumeUser
  rw [hws] at hframe
  obtain ⟨harrived, -, -, hrest, hmem⟩ := hswitch.arrives (by omega) (by omega) hframe
    fun a ha ha' => .inl ⟨ha, by omega⟩
  rw [hwords] at hrest
  -- `resume_user` pops the rest
  obtain ⟨m', hrun, hrip', hcs, hrflags, hstack', hss, hregs⟩ := resumeUser_spec hcode harrived hrest
  refine ⟨harrived, ⟨m', hrun, ⟨hrip', hcs, hrflags, ?_, hss, hregs⟩, fun i hi => ?_⟩, hrsp⟩
  · rw [hstack']
  · have hin : Between (cloneStack s) (cloneStack s + 2048) (cloneStack s + i) :=
      ⟨Nat.le_add_right _ _, Nat.add_lt_add_left hi _⟩
    rw [hstack', ← hcopy i hi]
    exact hmem (cloneStack s + i) (Or.inr hin)

/-- **First run**: the first switch to a process of `KernelInitializeProcess`, besides the first
process of all, reaches `rip` with the callee-saved registers null and the stack pointer at the end of
the block of 0x2000 bytes. The first switch to a clone passes through `resume_user` to an `iretq` that
enters ring 3 at `rip`, on a copy of 2048 bytes of the stack of the parent, with all registers null. The
words on the new stacks are within the blocks requested for them. -/
theorem first_run {s₀ : State} (hstart : Start s₀) (P : Mmu.Platform) (fuel resumeUser : ℕ)
    (before after : List TaskCall) (c : TaskCall)
    (hreturns : Along (TaskCall.step P fuel resumeUser)
      (fun s c => c.Returns P fuel resumeUser s) s₀ (before ++ [c])) :
    let s := run (TaskCall.step P fuel resumeUser) s₀ before
    let s' := c.step P fuel resumeUser s
    let rsp := ((run (TaskCall.step P fuel resumeUser) s' after).tasks (newTask s)).rsp
    s.firstTask ≠ 0 → NotEntered P fuel resumeUser (newTask s) s' after →
    (∀ rip permissions, c = .initializeProcess rip permissions → rip < 2 ^ 64 →
      newStack s + 0x2000 < 2 ^ 64 →
      ∀ K m, FirstSwitch K m s'.mmu.mem (newTask s) rsp (initializedBytes s) →
        Started (switchTask K m) rip (newStack s + 0x2000) ∧
        newStack s ≤ (s'.tasks (newTask s)).rsp ∧
        (s'.tasks (newTask s)).rsp + 8 * (switchFrame rip).length = newStack s + 0x2000) ∧
    (∀ rip ursp, c = .cloneProcess rip ursp → rip < 2 ^ 64 → resumeUser < 2 ^ 64 →
      newStack s + 0x128 < 2 ^ 64 → cloneStack s < 2 ^ 64 →
      Apart (newStack s) 0x128 (cloneStack s) 2048 →
      ∀ K m, FirstSwitch K m s'.mmu.mem (newTask s) rsp (clonedBytes s) →
      ∀ C q, CodeAt C (UInt64.ofNat resumeUser) (resumeUserCode.map .simple ++ [.iretq]) q →
        (switchTask K m).rip = UInt64.ofNat resumeUser ∧
        (∃ m', Reaches C (switchTask K m) m' ∧ Resumed m' rip (cloneStack s) ∧
          (∀ i < 2048, m'.stack.mem (cloneStack s + i) = memoryAtCopy P s (ursp + i)) ∧
          ∀ a, ¬ Between (newRoot P s) (newRoot P s + 4096) a →
            memoryAtCopy P s a = s.mmu.mem a) ∧
        newStack s ≤ (s'.tasks (newTask s)).rsp ∧
        (s'.tasks (newTask s)).rsp + 8 * (cloneFrame rip (cloneStack s) resumeUser).length =
          newStack s + 0x128) := by
  intro s s' rsp hfirst hafter
  obtain ⟨hbefore, hret, -⟩ := along_append.mp hreturns
  obtain ⟨ps, hring, -⟩ := (RingInv.start hstart).run hbefore
  constructor
  · rintro rip permissions rfl hrip hspace K m hswitch
    obtain ⟨hstarted, hrsp⟩ :=
      initialized_starts hring hfirst hret rfl hafter hrip hspace hswitch
    have hlength : (switchFrame rip).length = 7 := rfl
    change (s'.tasks (newTask s)).rsp = newStack s + 0x2000 - 56 at hrsp
    exact ⟨hstarted, by omega, by omega⟩
  · rintro rip ursp rfl hrip hresume hspace hstack hapart K m hswitch C q hcode
    obtain ⟨harrived, ⟨m', hrun, hresumed, hcopy⟩, hrsp⟩ :=
      cloned_starts hring hret rfl hafter hrip hresume hspace hstack hapart hswitch hcode
    have hlength : (cloneFrame rip (cloneStack s) resumeUser).length = 29 := rfl
    change (s'.tasks (newTask s)).rsp = newStack s + 0x128 - 232 at hrsp
    exact ⟨harrived, ⟨m', hrun, hresumed, hcopy, fun a ha => memoryAtCopy_eq ha⟩, by omega,
      by omega⟩

end FirstRun

/-! ## Switches in a small kernel -/

/-- `unlock` without a frame of its own. -/
def leafUnlock : Unlock where
  spinlock := 0x3000
  returnAddress := 0x42
  scratch _ _ := 0
  depth := 0
  used s := s.mem
  used_eq _ _ _ := rfl

/-- A switch to a record, from one at `0x1000` with its stack below `0x4000`. -/
def switcher (mem : Memory) (task rsp : ℕ) : Machine where
  regs
    | .rdi => UInt64.ofNat task
    | .rsi => 0x1000
    | _ => 0x77
  stack := ⟨mem.store64 (task + 8) (UInt64.ofNat rsp).toNat, 0x4000⟩
  rip := 0x40
  cs := 8
  rflags := 2
  ss := 16
  gs := 0
  kernelGs := 0
  calls := []

theorem firstSwitch_switcher (created : Memory) (task rsp : ℕ) (owned : ℕ → Prop)
    (htask : 0x5000 ≤ task) (hend : task + 16 ≤ 2 ^ 64) (hrsp : 0x5000 ≤ rsp) (hspace : rsp < 2 ^ 64)
    (howned : ∀ a, owned a → 0x5000 ≤ a ∧ (a < rsp - 8 ∨ rsp ≤ a) ∧ (a < task + 8 ∨ task + 16 ≤ a)) :
    FirstSwitch leafUnlock (switcher created task rsp) created task rsp owned := by
  have htop : (UInt64.ofNat rsp).toNat = rsp := UInt64.toNat_ofNat_of_lt' hspace
  have hsaves {a : ℕ} (ha : 0x5000 ≤ a) : ¬ Saves (switcher created task rsp) a := by
    change ¬ (0x4000 - 48 ≤ a ∧ a < 0x4000 ∨ 0x1008 ≤ a ∧ a < 0x1008 + 8)
    omega
  constructor
  · change (UInt64.ofNat task + UInt64.ofNat 8).toNat = task + 8
    rw [← UInt64.ofNat_add]
    exact UInt64.toNat_ofNat_of_lt' (show task + 8 < 2 ^ 64 by omega)
  · exact word_store64 created (task + 8) (UInt64.ofNat rsp)
  · exact fun a ha _ => hsaves (by omega)
  · exact (by decide : 48 ≤ (0x4000 : UInt64).toNat)
  · intro a ha
    obtain ⟨-, -, hrecord⟩ := howned a ha
    exact Memory.store64_apply_of_not_mem (by omega)
  · intro a ha
    obtain ⟨hlow, hstack, -⟩ := howned a ha
    refine ⟨hsaves hlow, ?_⟩
    change ¬ ((UInt64.ofNat rsp).toNat - 8 - 0 ≤ a ∧ a < (UInt64.ofNat rsp).toNat ∨ a = 0x3000)
    rw [htop]
    omega

/-- The kernel with one process. -/
def oneProcess : State :=
  run (TaskCall.step Mmu.bootPlatform 8 28) bootKernel [.initializeProcess 0 1]

/-- The two kinds of processes, with `resume_user` in front of the last instruction of the code. -/
theorem second_process_starts :
    (∃ m, Started (switchTask leafUnlock m) 0x5000 (newStack oneProcess + 0x2000)) ∧
    ∃ m m', Reaches smallProcessor (switchTask leafUnlock m) m' ∧
      Resumed m' 0x6000 (cloneStack oneProcess) := by
  obtain ⟨q, hcode⟩ : ∃ q, CodeAt smallProcessor (UInt64.ofNat 28)
      (resumeUserCode.map .simple ++ [.iretq]) q :=
    codeAt_codeOf rfl (by decide) ⟨[.call 0], rfl⟩
  have htask : newTask oneProcess = 0x250000 := by decide
  have hstack : newStack oneProcess = 0x260000 := by decide
  have huser : cloneStack oneProcess = 0x282000 := by decide
  constructor
  · -- what `switch_task` saves stays below the new stack
    obtain ⟨hstarts, -⟩ := first_run bootKernel_start Mmu.bootPlatform 8 28
      [.initializeProcess 0 1] [] (.initializeProcess 0x5000 1) (by decide)
      (by decide) (by decide)
    have hrsp : (((TaskCall.initializeProcess 0x5000 1).step Mmu.bootPlatform 8 28
        oneProcess).tasks (newTask oneProcess)).rsp = 0x261FC8 := by decide
    have hswitch := firstSwitch_switcher
      ((TaskCall.initializeProcess 0x5000 1).step Mmu.bootPlatform 8 28 oneProcess).mmu.mem
      0x250000 0x261FC8 (initializedBytes oneProcess) (by decide) (by decide) (by decide) (by decide)
      fun a ha => by
        obtain ⟨hlow, hhigh⟩ := ha
        rw [hstack] at hlow hhigh
        omega
    rw [← htask, ← hrsp] at hswitch
    obtain ⟨hstarted, -⟩ :=
      hstarts 0x5000 1 rfl (by decide) (by decide) leafUnlock _ hswitch
    exact ⟨_, hstarted⟩
  · -- the same for a clone, which also has the copy of its parent's stack to lose
    obtain ⟨-, hstarts⟩ := first_run bootKernel_start Mmu.bootPlatform 8 28
      [.initializeProcess 0 1] [] (.cloneProcess 0x6000 0x7000) (by decide)
      (by decide) (by decide)
    have hrsp : (((TaskCall.cloneProcess 0x6000 0x7000).step Mmu.bootPlatform 8 28
        oneProcess).tasks (newTask oneProcess)).rsp = 0x260040 := by decide
    have hswitch := firstSwitch_switcher
      ((TaskCall.cloneProcess 0x6000 0x7000).step Mmu.bootPlatform 8 28 oneProcess).mmu.mem
      0x250000 0x260040 (clonedBytes oneProcess) (by decide) (by decide) (by decide) (by decide)
      fun a ha => by
        rcases ha with ⟨hlow, hhigh⟩ | ⟨hlow, hhigh⟩
        · rw [hstack] at hlow hhigh
          omega
        · rw [huser] at hlow hhigh
          omega
    rw [← htask, ← hrsp] at hswitch
    obtain ⟨-, ⟨m', hrun, hresumed, -⟩, -⟩ :=
      hstarts 0x6000 0x7000 rfl (by decide) (by decide) (by decide) (by decide)
        (by decide) leafUnlock _ hswitch smallProcessor q hcode
    exact ⟨_, m', hrun, hresumed⟩

/-- The first process of all is current already: a switch away from it comes first, and the one back
does not reach `rip`. -/
theorem first_process_not_started :
    Along (TaskCall.step Mmu.bootPlatform 8 28) (fun s c => c.Returns Mmu.bootPlatform 8 28 s)
      bootKernel [.initializeProcess 0x5000 1, .initializeProcess 0x6000 1, .switchProcess 0x9000] ∧
    NotEntered Mmu.bootPlatform 8 28 (newTask bootKernel)
      ((TaskCall.initializeProcess 0x5000 1).step Mmu.bootPlatform 8 28 bootKernel)
      [.initializeProcess 0x6000 1, .switchProcess 0x9000] ∧
    ∃ m, FirstSwitch leafUnlock m
        ((TaskCall.initializeProcess 0x5000 1).step Mmu.bootPlatform 8 28 bootKernel).mmu.mem
        (newTask bootKernel)
        ((run (TaskCall.step Mmu.bootPlatform 8 28) bootKernel
          [.initializeProcess 0x5000 1, .initializeProcess 0x6000 1,
            .switchProcess 0x9000]).tasks (newTask bootKernel)).rsp
        (initializedBytes bootKernel) ∧
      ¬ Started (switchTask leafUnlock m) 0x5000 (newStack bootKernel + 0x2000) := by
  have htask : newTask bootKernel = 0x210000 := by decide
  have hstack : newStack bootKernel = 0x220000 := by decide
  have hrsp : ((run (TaskCall.step Mmu.bootPlatform 8 28) bootKernel
      [.initializeProcess 0x5000 1, .initializeProcess 0x6000 1,
        .switchProcess 0x9000]).tasks (newTask bootKernel)).rsp = 0x9000 := by decide
  refine ⟨by decide, by decide,
    switcher ((TaskCall.initializeProcess 0x5000 1).step Mmu.bootPlatform 8 28 bootKernel).mmu.mem
      0x210000 0x9000, ?_, fun h => ?_⟩
  · rw [hrsp, htask]
    apply firstSwitch_switcher _ _ _ _ (by decide) (by decide) (by decide) (by decide)
    rintro a ⟨hlow, hhigh⟩
    rw [hstack] at hlow hhigh
    omega
  · exact absurd h.rip (by decide)

end Cutesugar.Kernel.FirstRun
