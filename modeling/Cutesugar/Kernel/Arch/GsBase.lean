import Cutesugar.Kernel.Arch.ContextPreservation

/-!
# The GS base of ring 3

The machine has one GS base, and each `swapgs` exchanges it with that of the kernel. An exit from
`isr_common` decides by the `cs` that it reads on the stack, so the parity of `swapgs` rests on the
saved contexts being in memory: where they are, the machine takes the steps of its control state.

- `SystemInv.toControl_step`: the simulation.
- `gsParity_everywhere`: the runs in which ring 3 sees an even count of `swapgs`.
-/

namespace Cutesugar.Kernel.Irq

open Lib

variable {g : System} {f : SavedFrame} {fs : List SavedFrame} {e : Event}

/-! ## The control state -/

/-- The control state with other frames for one process. -/
theorem System.toControl_update (g : System) (m : Machine) (entered : Bool) (i : ℕ)
    (fs : List SavedFrame) :
    (System.mk m (Function.update g.frames i fs) entered).toControl =
      { frames := Function.update g.toControl.frames i
          (fs.map fun f => ⟨f.stage, f.context.cs != kernelCode⟩)
        count := m.count
        current := m.current
        user := m.cpu.cs != kernelCode
        swaps := m.swaps
        entered := entered } := by
  rw [System.toControl]
  congr 1
  funext j
  show (Function.update g.frames i fs j).map _ = _
  rcases eq_or_ne j i with rfl | hne
  · rw [Function.update_self, Function.update_self]
  · rw [Function.update_of_ne hne, Function.update_of_ne hne]
    rfl

/-- The innermost frame in the control state. -/
theorem toControl_stack (hstack : g.stack = f :: fs) :
    g.toControl.stack = ⟨f.stage, f.context.cs != kernelCode⟩ ::
      fs.map fun f => ⟨f.stage, f.context.cs != kernelCode⟩ := by
  show g.stack.map _ = _
  rw [hstack]
  rfl

/-- An exit executes `swapgs` where its frame goes back to ring 3. -/
theorem toControl_popRegs (hstack : g.stack = f :: fs) (result : Option Word) (swap : Bool) :
    (System.mk ((g.machine.setResult result).popRegs swap)
      (Function.update g.frames g.machine.current (framesToIret result g.stack))
      g.entered).toControl = g.toControl.toIret swap := by
  rw [Control.toIret]
  simp only [toControl_stack hstack]
  rw [hstack, System.toControl_update]
  cases result <;> rfl

theorem toControl_returnsToUser (hstack : g.stack = f :: fs) :
    g.toControl.returnsToUser = (f.context.cs != kernelCode) := by
  rw [Control.returnsToUser]
  simp only [toControl_stack hstack]

theorem toIret_entered {c : Control} {swap : Bool} : (c.toIret swap).entered = c.entered := by
  rw [Control.toIret]
  split <;> rfl

/-- **Simulation**: the machine takes the step of its control state. -/
theorem SystemInv.toControl_step (h : SystemInv g) (he : g.toControl.Enabled e)
    (hready : g.StackReady e) : (g.step e).toControl = g.toControl.step e := by
  cases e with
  | run regs rip rflags => rfl
  | moveStack rsp => rfl
  | push w => rfl
  | pop => rfl
  | interrupt vector pad =>
    rw [System.step, System.stepFrames, System.toControl_update]
    rfl
  | leave =>
    obtain ⟨huser, hstage⟩ := he
    obtain ⟨f, fs, hstack, hstage⟩ := System.stack_of_stage hstage
    have hin : f ∈ g.stack := hstack ▸ List.mem_cons_self ..
    have hmem := (h.frames _ h.current f hin).1
    -- the `swapgs` of the exit is decided by the `cs` in the frame
    have hswap : (!g.machine.savedKernel) = g.toControl.returnsToUser := by
      rw [savedKernel_eq hmem (by simp [hstage]) (hready f (hstack ▸ rfl)),
        toControl_returnsToUser hstack]
      rfl
    have hstep := toControl_popRegs hstack none !g.machine.savedKernel
    rw [System.step]
    show System.toControl ⟨_, _, (g.toControl.toIret _).entered⟩ = g.toControl.toIret _
    rw [toIret_entered, ← hswap, ← hstep]
    rfl
  | syscall pad =>
    rw [System.step, System.stepFrames, System.toControl_update]
    rfl
  | leaveSyscall result =>
    obtain ⟨f, fs, hstack, hstage⟩ := System.stack_of_stage he.2
    have hstep := toControl_popRegs hstack result true
    rw [System.step]
    show System.toControl ⟨_, _, (g.toControl.toIret _).entered⟩ = g.toControl.toIret _
    rw [toIret_entered, ← hstep]
    rfl
  | resumeUser =>
    obtain ⟨f, fs, hstack, hstage⟩ := System.stack_of_stage he.2
    have hstep := toControl_popRegs hstack none true
    rw [System.step]
    show System.toControl ⟨_, _, (g.toControl.toIret _).entered⟩ = g.toControl.toIret _
    rw [toIret_entered, ← hstep]
    rfl
  | iretq =>
    obtain ⟨f, fs, hstack, hstage⟩ := System.stack_of_stage he.2
    -- the ring behind `iretq` is the one of the context restored
    have hcpu := h.iretq_cpu hstack hstage
    have hreturns := toControl_returnsToUser hstack
    rw [System.step, System.stepFrames, System.toControl_update]
    show Control.mk _ _ _ (g.machine.iretq.cpu.cs != kernelCode) _ _ = _
    rw [hcpu, ← hreturns, List.map_tail]
    rfl
  | switchToUser => rfl
  | switchProcess =>
    rcases Nat.lt_or_ge g.machine.count 2 with hone | hcount
    · have hmachine : g.machine.step .switchProcess = g.machine := if_pos hone
      have hcontrol : g.toControl.step .switchProcess = g.toControl := if_pos hone
      have hframes : g.stepFrames .switchProcess = g.frames := if_pos hone
      rw [hcontrol, System.step, hcontrol, hmachine, hframes]
      rfl
    · have hcontrol : g.toControl.step .switchProcess =
          { g.toControl.setStack (⟨.switch, false⟩ :: g.toControl.stack) with
            current := g.toControl.next } := if_neg (Nat.not_lt.mpr hcount)
      have hframes : g.stepFrames .switchProcess = Function.update g.frames g.machine.current
          (⟨.switch, g.machine.top, g.machine.cpu⟩ :: g.stack) := if_neg (Nat.not_lt.mpr hcount)
      have hcs : (g.machine.cpu.cs != kernelCode) = false := he.1.1
      rw [hcontrol, System.step, hcontrol, hframes, System.toControl_update, List.map_cons, hcs]
      show Control.mk _ g.machine.switchProcess.count g.machine.switchProcess.current
        (g.machine.switchProcess.cpu.cs != kernelCode) g.machine.switchProcess.swaps _ = _
      rw [Machine.switchProcess, if_neg (Nat.not_lt.mpr hcount)]
      rfl
  | switchReturn =>
    rw [System.step, System.stepFrames, System.toControl_update, List.map_tail]
    rfl
  | initializeProcess rip block =>
    rw [System.step, System.stepFrames, System.toControl_update]
    rfl
  | cloneProcess rip userRsp block =>
    rw [System.step, System.stepFrames, System.toControl_update]
    rfl

/-! ## Whole runs -/

/-- Ring 3 runs with an even count of `swapgs`. -/
def System.GsParity (g : System) : Prop := g.machine.cpu.cs ≠ kernelCode → g.machine.swaps % 2 = 0

instance (g : System) : Decidable g.GsParity := inferInstanceAs (Decidable (_ → _))

/-- The saved contexts are in memory, and the parity is that of the control state. -/
structure GsInv (g : System) : Prop where
  system : SystemInv g
  parity : ParityInv g.toControl

theorem System.Boot.gsInv (h : g.Boot) : GsInv g := by
  have hstart : g.toControl = Control.boot := by
    rw [System.toControl, Control.boot, h.count, h.current, h.cs, h.swaps, h.entered]
    simp [h.frames]
  exact ⟨h.inv, hstart ▸ ParityInv.boot⟩

theorem GsInv.gsParity (h : GsInv g) : g.GsParity :=
  fun hcs => h.parity.gsParity (by simpa [System.toControl] using hcs)

/-- **Step lemma.** -/
theorem GsInv.step (h : GsInv g) (he : g.Guard e) (hk : g.toControl.Kept e) : GsInv (g.step e) := by
  refine ⟨h.system.step he.1 he.2.1 he.2.2, ?_⟩
  rw [h.system.toControl_step he.1 he.2.1]
  exact h.parity.step he.1 hk

/-- **Parity over runs**: along every run in which the saved contexts are kept and the first entries
into ring 3 are as they should be, ring 3 runs with an even count of `swapgs`, and a system call
gets to its handler with an odd one, which is with the GS base of the kernel. -/
theorem gsParity_everywhere {es : List Event} (hboot : g.Boot)
    (hrun : Along System.step (fun g e => g.Guard e ∧ g.toControl.Kept e) g es) :
    Everywhere System.step System.GsParity g es ∧
      ∀ pre pad post, es = pre ++ .syscall pad :: post →
        (run System.step g (pre ++ [.syscall pad])).machine.swaps % 2 = 1 := by
  have hstep : ∀ g e, GsInv g → g.Guard e ∧ g.toControl.Kept e → GsInv (g.step e) :=
    fun g e h hguard => h.step hguard.1 hguard.2
  constructor
  · exact hrun.everywhere hboot.gsInv hstep fun g h => h.gsParity
  · rintro pre pad post rfl
    obtain ⟨hpre, ⟨⟨huser, -⟩, -⟩, -⟩ := along_append.mp hrun
    have hinv := hpre.invariant hboot.gsInv hstep
    have heven := hinv.gsParity (System.cs_of_inUser huser)
    rw [run_append]
    show ((run System.step g pre).machine.swaps + 1) % 2 = 1
    omega

/-- The boot process enters ring 3 and is cloned by a system call, and the clone is resumed. -/
theorem clone_runs_even :
    Everywhere System.step System.GsParity bootSystem
      [.switchToUser, .syscall 0, .cloneProcess (.value 0x2000) (.value 0x7000) 0x10000,
        .leaveSyscall (some (.value 2)), .iretq, .interrupt 32 0, .switchProcess, .switchReturn,
        .resumeUser, .iretq] ∧
    (run System.step bootSystem [.switchToUser, .syscall 0]).machine.swaps % 2 = 1 := by
  have h := @gsParity_everywhere bootSystem [.switchToUser, .syscall 0,
    .cloneProcess (.value 0x2000) (.value 0x7000) 0x10000, .leaveSyscall (some (.value 2)), .iretq,
    .interrupt 32 0, .switchProcess, .switchReturn, .resumeUser, .iretq] bootSystem_boot
    (by decide +kernel)
  exact ⟨h.1, h.2 [.switchToUser] 0 _ rfl⟩

/-- A second process enters ring 3 through `switch_to_user`. -/
theorem second_user_odd :
    Along System.step System.Guard bootSystem
      [.initializeProcess (.value 0x2000) 0x10000, .switchToUser, .interrupt 32 0, .switchProcess,
        .switchReturn, .switchToUser] ∧
    ¬ Everywhere System.step System.GsParity bootSystem
      [.initializeProcess (.value 0x2000) 0x10000, .switchToUser, .interrupt 32 0, .switchProcess,
        .switchReturn, .switchToUser] := by
  decide +kernel

end Cutesugar.Kernel.Irq
