import Cutesugar.Kernel.Arch.ContextSwitch

/-!
# Preservation of contexts

Every event keeps the invariant of the saved contexts where its pushes fit and are clear of the
suspended processes. Along such runs a process goes on with the context it was suspended with, and
the machine takes the steps of its control state.
-/

namespace Cutesugar.Kernel.Irq

open Lib

variable {g : System} {f : SavedFrame} {fs : List SavedFrame} {e : Event}

/-! ## Reading the control state -/

theorem System.cs_of_user (h : g.toControl.user = false) : g.machine.cpu.cs = kernelCode := by
  simpa [System.toControl] using h

theorem System.cs_of_inUser (h : g.toControl.user = true) : g.machine.cpu.cs ≠ kernelCode := by
  simpa [System.toControl] using h

theorem System.stack_of_stage {stage : Stage} (h : g.toControl.stage = some stage) :
    ∃ f fs, g.stack = f :: fs ∧ f.stage = stage := by
  rw [Control.stage] at h
  change ((g.stack.map _).head?).map ControlFrame.stage = some stage at h
  cases hstack : g.stack with
  | nil => simp [hstack] at h
  | cons f fs =>
    rw [hstack] at h
    exact ⟨f, fs, rfl, Option.some.inj h⟩

/-- Where code of the kernel runs, the innermost path is in its handler. -/
theorem System.inCode (h : g.toControl.InCode) :
    g.machine.cpu.cs = kernelCode ∧ ∀ f ∈ g.stack.head?, f.stage ≠ .iret := by
  obtain ⟨huser, hiret, -⟩ := h
  refine ⟨System.cs_of_user huser, fun f hf hstage => hiret ?_⟩
  obtain ⟨fs, hfs⟩ := List.head?_eq_some_iff.mp hf
  change ((g.stack.map _).head?).map ControlFrame.stage = some .iret
  rw [hfs]
  exact congrArg some hstage

theorem System.stack_nil (h : g.toControl.stack = []) : g.stack = [] := List.map_eq_nil_iff.mp h

/-! ## Steps of the current process -/

/-- Code moves its stack pointer above its frames, and may push. -/
theorem SystemInv.move (h : SystemInv g) (hcode : g.toControl.InCode) {q : Place} {mem : ℕ → Word}
    (hq : q.stack = g.machine.top.stack)
    (hfloor : ∀ f ∈ g.stack.head?, f.base.depth + f.size ≤ q.depth)
    (hothers : g.OthersKept mem) (hframes : ∀ f ∈ g.stack, f.InMemory g.machine.layout mem) :
    SystemInv ⟨{ g.machine with mem := mem, cpu := { g.machine.cpu with rsp := .place q } },
      g.frames, g.entered⟩ := by
  obtain ⟨hcs, hhead⟩ := System.inCode hcode
  have hrsp := h.rsp_eq hcs
  apply h.code_step
  · rfl
  · rfl
  · rfl
  · rfl
  · exact hothers
  · exact hframes
  · refine Atop.move (q := q) h.own ?_ ?_ hhead fun f hf => ⟨?_, hfloor f hf⟩
    · rfl
    · rfl
    · have hmem : f ∈ g.stack := List.mem_of_mem_head? hf
      exact hq.trans (h.own.below hrsp f hmem).1.symm

/-- **Entry**: the frame is pushed where nothing of the others is. -/
theorem SystemInv.enter (h : SystemInv g) {vector pad : ℕ} {code number : Word} {swap : Bool}
    {stage : Stage} (hstage : stage ≠ .iret) (hswitch : stage ≠ .switch)
    (hsyscall : stage = .syscall → g.machine.cpu.cs ≠ kernelCode)
    (hclear : g.Clear (g.machine.entry pad) 22) :
    SystemInv ⟨g.machine.enter vector pad [code, number] swap,
      Function.update g.frames g.machine.current
        (⟨stage, g.machine.entry pad, g.machine.cpu⟩ :: g.stack), g.entered⟩ := by
  have hsize : (⟨stage, g.machine.entry pad, g.machine.cpu⟩ : SavedFrame).size = 22 :=
    SavedFrame.size_eq hstage hswitch
  have hbelow := h.below_entry pad
  have hown := h.ownKept_pushAt (frameWords g.machine.cpu [code, number]) hclear.within
    fun f hf => (hbelow f hf).2
  apply h.own_step
  · rfl
  · rfl
  · rfl
  · rfl
  · apply h.othersKept_pushAt
    · exact hclear.within
    · exact fun i hi hne => h.apart_of_clear hclear hi hne
  · intro f hf
    rcases List.mem_cons.mp hf with rfl | hf
    · exact ⟨inMemory_frameWords hswitch, hsize ▸ hclear.within⟩
    · exact ⟨hown f hf, (h.frames _ h.current f hf).2⟩
  · -- the new frame is above those below it
    apply h.own.enter rfl rfl hstage hswitch hsyscall rfl
    intro hcs p hp
    obtain rfl : p = g.machine.top := Word.place.inj (hp.symm.trans (h.rsp_eq hcs))
    show _ = (g.machine.entry pad).stack ∧ _ ≤ (g.machine.entry pad).depth
    rw [Machine.entry, if_pos hcs]
    exact ⟨rfl, Nat.le_add_right _ _⟩
  · intro f hf
    rcases List.mem_cons.mp hf with rfl | hf
    · intro j hj hne f' hf'
      rw [hsize]
      exact (h.apart_of_clear hclear hj hne f' hf').symm
    · exact h.apart _ h.current f hf

/-- The result of a system call goes to the place of `rax` in its frame. -/
theorem popped_setResult {m : Machine} {result : Option Word} (h : f.InMemory m.layout m.mem)
    (hstage : f.stage ≠ .iret) (hswitch : f.stage ≠ .switch) (htop : m.top = f.base.up 22) :
    (m.setResult result).popped = match result with
      | none => f.context.regs
      | some w => Function.update f.context.regs .rax w := by
  cases result with
  | none => exact popped_eq h hstage hswitch htop
  | some w =>
    funext r
    have hr := congrFun (popped_eq h hstage hswitch htop) r
    have hlt := idxOf_pushOrder_lt r
    have htop' : (m.setResult (some w)).top = f.base.up 22 := htop
    have hdown : m.top.down 15 = f.base.up 7 := by
      rw [htop]
      exact Place.down_up _ (by decide)
    rw [Machine.popped, below_eq htop (by omega)] at hr
    rw [Machine.popped, below_eq htop' (by omega), Machine.setResult]
    simp only [StackLayout.pushAt, hdown, StackLayout.cell_up]
    rcases eq_or_ne r .rax with rfl | hne
    · -- the word stored
      have hidx : pushOrder.idxOf Reg.rax = 0 := rfl
      rw [Function.update_self, hidx]
      simp
    · have hidx : 1 ≤ pushOrder.idxOf r := by
        cases r with
        | rax => exact absurd rfl hne
        | _ => decide
      rw [Function.update_of_ne hne, if_pos (by omega), List.getElem?_eq_none]
      · exact hr
      · rw [List.length_singleton]
        omega

/-- **Exit**, up to the `iretq`. -/
theorem SystemInv.popRegs (h : SystemInv g) (hcs : g.machine.cpu.cs = kernelCode)
    (hstack : g.stack = f :: fs) (hstage : f.stage ≠ .iret) (hswitch : f.stage ≠ .switch)
    (htop : g.machine.top = f.base.up 22) {result : Option Word}
    (hresult : f.stage = .syscall ∨ result = none) (swap entered : Bool) :
    SystemInv ⟨(g.machine.setResult result).popRegs swap,
      Function.update g.frames g.machine.current (framesToIret result g.stack), entered⟩ := by
  have hmem : f ∈ g.stack := hstack ▸ List.mem_cons_self ..
  obtain ⟨hf, hwithin⟩ := h.frames _ h.current f hmem
  have hsize : f.size = 22 := SavedFrame.size_eq hstage hswitch
  rw [hsize] at hwithin
  have hown := h.own
  rw [hstack] at hown
  obtain ⟨hbelow, hrest⟩ := hown
  -- the place of the result is in the frame
  have hplace : ∀ {q : Place} {k : ℕ}, Separate f.base f.size q k →
      Separate q k (f.base.up 7) 1 := by
    intro q k hsep hstack
    rw [hsize] at hsep
    simp only [Place.up_stack, Place.up_depth] at hstack ⊢
    rcases hsep hstack.symm with hle | hle <;> omega
  have hone : g.machine.layout.Within (f.base.up 7) 1 := hwithin.up (by decide)
  have hdown : g.machine.top.down 15 = f.base.up 7 := by
    rw [htop]
    exact Place.down_up _ (by decide)
  have hothers : g.OthersKept (g.machine.setResult result).mem := by
    cases result with
    | none => exact h.othersKept
    | some w =>
      rw [Machine.setResult, hdown]
      exact h.othersKept_pushAt [w] hone fun i hi hne f' hf' =>
        hplace (h.apart _ h.current f hmem i hi hne f' hf')
  have hbehind : ∀ f' ∈ fs, f' ∈ g.stack := by
    intro f' hf'
    rw [hstack]
    exact List.mem_cons_of_mem f hf'
  have hothers_own : ∀ f' ∈ fs, f'.InMemory g.machine.layout (g.machine.setResult result).mem := by
    intro f' hf'
    obtain ⟨hf'mem, hf'within⟩ := h.frames _ h.current f' (hbehind f' hf')
    cases result with
    | none => exact hf'mem
    | some w =>
      rw [Machine.setResult, hdown]
      refine hf'mem.pushAt h.layout hf'within hone fun _ => .inl ?_
      by_cases hc : f.context.cs = kernelCode
      · obtain ⟨q, hq, -, hdepth⟩ := hbelow.kernel hc
        have := (hrest.below hq f' hf').2
        rw [Place.up_depth]
        omega
      · rw [hbelow.user hc] at hf'
        exact absurd hf' List.not_mem_nil
  have hiret : g.machine.layout.WordsAt (g.machine.setResult result).mem f.base
      (iretWords f.context) := by
    cases result with
    | none => exact hf.iret hswitch
    | some w =>
      rw [Machine.setResult, hdown]
      refine (hf.iret hswitch).pushAt h.layout (hwithin.mono (show 5 ≤ 22 by decide)) hone
        fun _ => .inl ?_
      rw [length_iretWords, Place.up_depth]
      omega
  rw [hstack]
  apply h.own_step
  · cases result <;> rfl
  · cases result <;> rfl
  · cases result <;> rfl
  · cases result <;> rfl
  · exact hothers
  · intro x hx
    rcases List.mem_cons.mp hx with rfl | hx
    · exact ⟨⟨fun _ => hiret, fun _ hne => absurd rfl hne, fun hsw => by simp at hsw⟩,
        hwithin.mono (show 7 ≤ 22 by decide)⟩
    · exact ⟨hothers_own x hx, (h.frames _ h.current x (hbehind x hx)).2⟩
  · have hcs' : ((g.machine.setResult result).popRegs swap).cpu.cs = kernelCode := by
      cases result <;> exact hcs
    have hrsp' : ((g.machine.setResult result).popRegs swap).cpu.rsp = .place (f.base.up 7) := by
      rw [← hdown]
      cases result <;> rfl
    refine ⟨⟨hcs', ⟨_, hrsp', rfl, le_rfl⟩, fun _ => ⟨hrsp', ?_⟩,
      fun hstage => absurd hstage (by simp), fun hstage => absurd hstage (by simp),
      hbelow.kernel, hbelow.user⟩, ?_⟩
    · exact popped_setResult hf hstage hswitch htop
    · rcases hresult with hsys | rfl
      · -- a system call is the outermost frame
        have hnil : fs = [] := hbelow.user (hbelow.syscall hsys)
        subst hnil
        exact fun hc => absurd hc (hbelow.syscall hsys)
      · exact hrest
  · intro x hx j hj hne f' hf'
    rcases List.mem_cons.mp hx with rfl | hx
    · have hsep := h.apart _ h.current f hmem j hj hne f' hf'
      rw [hsize] at hsep
      exact hsep.mono (show 7 ≤ 22 by decide) le_rfl
    · exact h.apart _ h.current x (hbehind x hx) j hj hne f' hf'

/-- The context that an `iretq` is about to restore. -/
theorem SystemInv.iretq_cpu (h : SystemInv g) (hstack : g.stack = f :: fs)
    (hstage : f.stage = .iret) : g.machine.iretq.cpu = f.context := by
  have hmem : f ∈ g.stack := hstack ▸ List.mem_cons_self ..
  have hown := h.own
  rw [hstack] at hown
  obtain ⟨hbelow, -⟩ := hown
  obtain ⟨hrsp, hregs⟩ := hbelow.iret hstage
  have htop : g.machine.top = f.base.up 7 := Word.place.inj ((h.rsp_eq hbelow.cs).symm.trans hrsp)
  exact iretq_eq (h.frames _ h.current f hmem).1 (by simp [hstage]) htop hregs

/-- A step that is done with the innermost frame. -/
theorem SystemInv.pop_frame (h : SystemInv g) (hstack : g.stack = f :: fs) (cpu : Context)
    (hatop : Atop cpu fs) (entered : Bool) :
    SystemInv ⟨{ g.machine with cpu := cpu },
      Function.update g.frames g.machine.current g.stack.tail, entered⟩ := by
  have hmem : ∀ f' ∈ fs, f' ∈ g.stack := by
    intro f' hf'
    rw [hstack]
    exact List.mem_cons_of_mem f hf'
  rw [hstack, List.tail_cons]
  apply h.own_step
  · rfl
  · rfl
  · rfl
  · rfl
  · exact h.othersKept
  · exact fun f' hf' => h.frames _ h.current f' (hmem f' hf')
  · exact hatop
  · exact fun f' hf' => h.apart _ h.current f' (hmem f' hf')

/-- **`iretq`**: the frame is gone and its context goes on. -/
theorem SystemInv.iretq (h : SystemInv g) (hstack : g.stack = f :: fs) (hstage : f.stage = .iret)
    (entered : Bool) : SystemInv ⟨g.machine.iretq,
      Function.update g.frames g.machine.current g.stack.tail, entered⟩ := by
  have hown := h.own
  rw [hstack] at hown
  exact h.pop_frame hstack g.machine.iretq.cpu (h.iretq_cpu hstack hstage ▸ hown.2) entered

/-- **First entry** into ring 3: the kernel stack is given up. -/
theorem SystemInv.switchToUser (h : SystemInv g) (hnil : g.stack = [])
    (hclear : g.Clear g.machine.top 5) :
    SystemInv ⟨g.machine.switchToUser, g.frames, true⟩ := by
  have huser : g.machine.switchToUser.cpu.cs ≠ kernelCode := by
    show userCode ≠ kernelCode
    decide
  apply h.code_step
  · rfl
  · rfl
  · rfl
  · rfl
  · apply h.othersKept_pushAt
    · exact hclear.within
    · exact fun i hi hne => h.apart_of_clear hclear hi hne
  · rw [hnil]
    exact fun f hf => absurd hf List.not_mem_nil
  · rw [hnil]
    exact fun hc => absurd hc huser

/-! ## Switching -/

theorem Machine.next_lt {m : Machine} (h : 0 < m.count) : m.next < m.count := by
  rw [Machine.next]
  split_ifs <;> assumption

/-- With two processes the next one is another one. -/
theorem Machine.next_ne {m : Machine} (h : 2 ≤ m.count) (hcurrent : m.current < m.count) :
    m.next ≠ m.current := by
  rw [Machine.next]
  split_ifs <;> omega

/-- **Switch**: the process that called it is suspended, the next one goes on. -/
theorem SystemInv.switchProcess (h : SystemInv g) (hcode : g.toControl.InCode)
    (hcount : 2 ≤ g.machine.count) (hclear : g.Clear g.machine.top 7) (entered : Bool) :
    SystemInv ⟨g.machine.switchProcess, Function.update g.frames g.machine.current
      (⟨.switch, g.machine.top, g.machine.cpu⟩ :: g.stack), entered⟩ := by
  obtain ⟨hcs, hhead⟩ := System.inCode hcode
  have hlt := Machine.next_lt (m := g.machine) (by omega)
  have hne := Machine.next_ne hcount h.current
  have htop := h.rsp_eq hcs
  have hothers := h.othersKept_pushAt (switchWords g.machine.cpu) hclear.within
    fun i hi hne => h.apart_of_clear hclear hi hne
  have hown := h.ownKept_pushAt (switchWords g.machine.cpu) hclear.within
    fun f hf => (h.own.below htop f hf).2
  rw [Machine.switchProcess, if_neg (by omega)]
  refine ⟨hlt, h.layout, fun i hi f hf => ?_, ?_, fun i hi hin => ?_, fun i hi f hf j hj hji => ?_⟩
  · rcases eq_or_ne i g.machine.current with rfl | hic
    · simp only [Function.update_self] at hf
      rcases List.mem_cons.mp hf with rfl | hf
      · exact ⟨inMemory_switchWords, hclear.within⟩
      · exact ⟨hown f hf, (h.frames _ h.current f hf).2⟩
    · simp only [Function.update_of_ne hic] at hf
      exact ⟨hothers i hi hic f hf, (h.frames i hi f hf).2⟩
  · -- the next process goes on above the words that it left
    obtain ⟨-, -, -, -, -, hatop⟩ := h.suspended _ hlt hne
    simp only [System.stack, Function.update_of_ne hne]
    exact hatop _ hcs rfl
  · rcases eq_or_ne i g.machine.current with rfl | hic
    · simp only [Function.update_self]
      exact ⟨_, _, rfl, rfl, rfl, fun c hc hrsp => h.own.switch hcs htop hhead hc hrsp⟩
    · simp only [Function.update_of_ne hic]
      exact h.suspended i hi hic
  · intro f' hf'
    rcases eq_or_ne i g.machine.current with rfl | hic
    · simp only [Function.update_self] at hf
      simp only [Function.update_of_ne hji] at hf'
      rcases List.mem_cons.mp hf with rfl | hf
      · exact (h.apart_of_clear hclear hj hji f' hf').symm
      · exact h.apart _ hi f hf j hj hji f' hf'
    · simp only [Function.update_of_ne hic] at hf
      rcases eq_or_ne j g.machine.current with rfl | hjc
      · simp only [Function.update_self] at hf'
        rcases List.mem_cons.mp hf' with rfl | hf'
        · exact h.apart_of_clear hclear hi hic f hf
        · exact h.apart i hi f hf _ hj hji f' hf'
      · simp only [Function.update_of_ne hjc] at hf'
        exact h.apart i hi f hf j hj hji f' hf'

/-- **The end of a switch**: the words of `switch_task` are gone and the process goes on. -/
theorem SystemInv.switchReturn (h : SystemInv g) (hcs : g.machine.cpu.cs = kernelCode)
    (hstack : g.stack = f :: fs) (hstage : f.stage = .switch)
    (htop : g.machine.top = f.base.up 7) (entered : Bool) :
    SystemInv ⟨g.machine.switchReturn,
      Function.update g.frames g.machine.current g.stack.tail, entered⟩ := by
  have hmem : f ∈ g.stack := hstack ▸ List.mem_cons_self ..
  obtain ⟨-, -, hrsp⟩ := switchReturn_eq (h.frames _ h.current f hmem).1 hstage htop
  have hown := h.own
  rw [hstack] at hown
  obtain ⟨hbelow, hrest⟩ := hown
  obtain ⟨hfcs, hfrsp, hhead⟩ := hbelow.switch hstage
  refine h.pop_frame hstack g.machine.switchReturn.cpu ?_ entered
  refine hrest.move (hcs.trans hfcs.symm) hrsp hhead fun f' hf' => ?_
  obtain ⟨hstack', hdepth⟩ := hrest.below hfrsp f' (List.mem_of_mem_head? hf')
  exact ⟨hstack'.symm, hdepth⟩

/-! ## Creation -/

theorem separate_of_stack {p q : Place} {n k : ℕ} (h : p.stack ≠ q.stack) : Separate p n q k :=
  fun hstack => absurd hstack h

/-- **Creation**: the initial words of a new process are on a stack of its own. -/
theorem SystemInv.create (h : SystemInv g) {block room : ℕ} {words : List Word}
    (hfresh : g.machine.layout.Fresh block room) (hroom : words.length ≤ room)
    (hfs : ∀ f ∈ fs, f.base.stack = g.machine.layout.count ∧
      f.InMemory (g.machine.create block room words).layout
        (g.machine.create block room words).mem ∧
      (g.machine.create block room words).layout.Within f.base f.size)
    (hwaits : ∃ f fs', fs = f :: fs' ∧ f.stage = .switch ∧
      (⟨g.machine.layout.count, words.length⟩ : Place) = f.base.up 7 ∧
      ∀ c : Context, c.cs = kernelCode →
        c.rsp = .place ⟨g.machine.layout.count, words.length⟩ → Atop c fs) (entered : Bool) :
    SystemInv ⟨g.machine.create block room words,
      Function.update g.frames g.machine.count fs, entered⟩ := by
  have hcurrent : g.machine.current ≠ g.machine.count := h.current.ne
  have hold : ∀ {i : ℕ}, i < g.machine.count + 1 → i ≠ g.machine.count → i < g.machine.count :=
    fun hi hne => lt_of_le_of_ne (Nat.le_of_lt_succ hi) hne
  have hlt : ∀ {i : ℕ}, i < g.machine.count → ∀ f ∈ g.frames i,
      f.base.stack < g.machine.layout.count := fun hi f hf => (h.frames _ hi f hf).2.1
  have hapart := h.layout.add hfresh
  have hwords : (g.machine.layout.add block room).Within ⟨g.machine.layout.count, 0⟩ words.length :=
    StackLayout.within_new (by omega)
  refine ⟨Nat.lt_succ_of_lt h.current, hapart, fun i hi f hf => ?_, ?_, fun i hi hne => ?_,
    fun i hi f hf j hj hji f' hf' => ?_⟩
  · rcases eq_or_ne i g.machine.count with rfl | hic
    · simp only [Function.update_self] at hf
      exact (hfs f hf).2
    · simp only [Function.update_of_ne hic] at hf
      obtain ⟨hmem, hwithin⟩ := h.frames i (hold hi hic) f hf
      exact ⟨(hmem.add hwithin block room).pushAt hapart hwithin.add hwords
        (separate_of_stack (hlt (hold hi hic) f hf).ne), hwithin.add⟩
  · show Atop g.machine.cpu (Function.update g.frames g.machine.count fs g.machine.current)
    rw [Function.update_of_ne hcurrent]
    exact h.own
  · show ∃ f fs', Function.update g.frames g.machine.count fs i = f :: fs' ∧ f.stage = .switch ∧
      Function.update g.machine.rsps g.machine.count _ i = f.base.up 7 ∧ ∀ c : Context,
        c.cs = kernelCode → c.rsp = .place (Function.update g.machine.rsps g.machine.count _ i) →
        Atop c (Function.update g.frames g.machine.count fs i)
    rcases eq_or_ne i g.machine.count with rfl | hic
    · rw [Function.update_self, Function.update_self]
      exact hwaits
    · rw [Function.update_of_ne hic, Function.update_of_ne hic]
      exact h.suspended i (hold hi hic) hne
  · -- frames on an old stack and on the new one
    rcases eq_or_ne i g.machine.count with rfl | hic
    · simp only [Function.update_self] at hf
      simp only [Function.update_of_ne hji] at hf'
      exact separate_of_stack ((hfs f hf).1.trans_ne (hlt (hold hj hji) f' hf').ne')
    · simp only [Function.update_of_ne hic] at hf
      rcases eq_or_ne j g.machine.count with rfl | hjc
      · simp only [Function.update_self] at hf'
        exact separate_of_stack ((hlt (hold hi hic) f hf).ne.trans_eq (hfs f' hf').1.symm)
      · simp only [Function.update_of_ne hjc] at hf'
        exact h.apart i (hold hi hic) f hf j (hold hj hjc) hji f' hf'

/-- A new process of `KernelInitializeProcess`. -/
theorem SystemInv.initializeProcess (h : SystemInv g) {block : ℕ} (rip : Word)
    (hfresh : g.machine.layout.Fresh block initialRoom) (entered : Bool) :
    SystemInv ⟨g.machine.create block initialRoom (initialWords rip),
      Function.update g.frames g.machine.count (initialFrames rip g.machine.layout.count),
      entered⟩ := by
  apply h.create hfresh
  · exact (by decide : 7 ≤ initialRoom)
  · intro f hf
    obtain rfl := List.mem_singleton.mp hf
    exact ⟨rfl, inMemory_switchWords (c := initialContext rip ⟨g.machine.layout.count, 0⟩),
      StackLayout.within_new (show 0 + 7 ≤ initialRoom by decide)⟩
  · refine ⟨_, _, rfl, rfl, rfl, fun c hc hrsp => ?_⟩
    have hnone : Atop (initialContext rip ⟨g.machine.layout.count, 0⟩) [] := fun _ => ⟨_, rfl⟩
    exact hnone.switch rfl rfl (by simp) hc hrsp

/-- A clone. The words of its frame are those that an entry path pushes. -/
theorem SystemInv.cloneProcess (h : SystemInv g) {block : ℕ} (rip userRsp : Word)
    (hfresh : g.machine.layout.Fresh block clonedRoom) (entered : Bool) :
    SystemInv ⟨g.machine.create block clonedRoom (clonedWords rip userRsp g.machine.resumeUser),
      Function.update g.frames g.machine.count
        (clonedFrames rip userRsp g.machine.resumeUser g.machine.layout.count), entered⟩ := by
  have hwords := (g.machine.layout.add block clonedRoom).wordsAt_pushAt g.machine.mem
    ⟨g.machine.layout.count, 0⟩ (clonedWords rip userRsp g.machine.resumeUser)
  rw [clonedWords, StackLayout.wordsAt_append, frameWords, StackLayout.wordsAt_append,
    StackLayout.wordsAt_append] at hwords
  obtain ⟨⟨⟨hiret, -⟩, hregs⟩, hswitch⟩ := hwords
  apply h.create hfresh
  · exact (by decide : 29 ≤ clonedRoom)
  · intro f hf
    rcases List.mem_cons.mp hf with rfl | hf
    · exact ⟨rfl, ⟨fun hne => absurd rfl hne, fun hne => absurd rfl hne, fun _ => hswitch⟩,
        StackLayout.within_new (show 22 + 7 ≤ clonedRoom by decide)⟩
    · obtain rfl := List.mem_singleton.mp hf
      exact ⟨rfl, ⟨fun _ => hiret, fun _ _ => hregs, fun hsw => by simp at hsw⟩,
        StackLayout.within_new (show 0 + 22 ≤ clonedRoom by decide)⟩
  · refine ⟨_, _, rfl, rfl, rfl, fun c hc hrsp => ?_⟩
    refine Atop.switch (p := ⟨g.machine.layout.count, 22⟩) ?_ rfl rfl (by simp) hc hrsp
    refine ⟨⟨rfl, ⟨_, rfl, rfl, le_rfl⟩, fun hstage => by simp at hstage,
      fun hstage => by simp at hstage, fun hstage => by simp at hstage, fun hcs => ?_,
      fun _ => rfl⟩, fun hcs => ?_⟩
    · exact absurd hcs (by decide : userCode ≠ kernelCode)
    · exact absurd hcs (by decide : userCode ≠ kernelCode)

/-! ## Whole runs -/

/-- **Step lemma.** -/
theorem SystemInv.step (h : SystemInv g) (he : g.toControl.Enabled e) (hready : g.StackReady e)
    (hk : g.Kept e) : SystemInv (g.step e) := by
  cases e with
  | run regs rip rflags =>
    apply h.code_step
    · rfl
    · rfl
    · rfl
    · rfl
    · exact h.othersKept
    · exact fun f hf => (h.frames _ h.current f hf).1
    · -- ring 3 has no frame above its context; in ring 0 the stack pointer is where it was
      rcases he with huser | hcode
      · have hcs := System.cs_of_inUser huser
        rw [h.own.user hcs]
        exact fun hc => absurd hc hcs
      · obtain ⟨hcs, hhead⟩ := System.inCode hcode
        have hrsp := h.rsp_eq hcs
        refine Atop.move (q := g.machine.top) h.own ?_ hrsp hhead fun f hf => ?_
        · rfl
        · obtain ⟨hstack, hdepth⟩ := h.own.below hrsp f (List.mem_of_mem_head? hf)
          exact ⟨hstack.symm, hdepth⟩
  | moveStack rsp =>
    have hcs := System.cs_of_inUser he
    apply h.code_step
    · rfl
    · rfl
    · rfl
    · rfl
    · exact h.othersKept
    · exact fun f hf => (h.frames _ h.current f hf).1
    · rw [h.own.user hcs]
      exact fun hc => absurd hc hcs
  | push w =>
    obtain ⟨hcs, -⟩ := System.inCode he
    have hbelow := h.own.below (h.rsp_eq hcs)
    apply h.move (q := g.machine.top.up 1) he
    · rfl
    · intro f hf
      obtain ⟨-, hdepth⟩ := hbelow f (List.mem_of_mem_head? hf)
      exact hdepth.trans (Nat.le_add_right _ _)
    · apply h.othersKept_pushAt
      · exact hk.within
      · exact fun i hi hne => h.apart_of_clear hk hi hne
    · apply h.ownKept_pushAt
      · exact hk.within
      · exact fun f hf => (hbelow f hf).2
  | pop =>
    apply h.move (q := g.machine.top.down 1) he
    · rfl
    · intro f hf
      -- the code pops nothing that belongs to a frame
      have hlt := hready.1 f hf
      rw [Place.down_depth]
      omega
    · exact h.othersKept
    · exact fun f hf => (h.frames _ h.current f hf).1
  | interrupt vector pad =>
    exact h.enter (by decide) (by decide) (fun hstage => by simp at hstage) hk
  | leave =>
    obtain ⟨huser, hstage⟩ := he
    obtain ⟨f, fs, hstack, hstage⟩ := System.stack_of_stage hstage
    exact h.popRegs (System.cs_of_user huser) hstack (by simp [hstage]) (by simp [hstage])
      (hready f (hstack ▸ rfl)) (.inr rfl) _ _
  | syscall pad => exact h.enter (by decide) (by decide) (fun _ => System.cs_of_inUser he) hk
  | leaveSyscall result =>
    obtain ⟨huser, hstage⟩ := he
    obtain ⟨f, fs, hstack, hstage⟩ := System.stack_of_stage hstage
    exact h.popRegs (System.cs_of_user huser) hstack (by simp [hstage]) (by simp [hstage])
      (hready f (hstack ▸ rfl)) (.inl hstage) _ _
  | resumeUser =>
    obtain ⟨huser, hstage⟩ := he
    obtain ⟨f, fs, hstack, hstage⟩ := System.stack_of_stage hstage
    exact h.popRegs (System.cs_of_user huser) hstack (by simp [hstage]) (by simp [hstage])
      (hready f (hstack ▸ rfl)) (.inr rfl) _ _
  | iretq =>
    obtain ⟨f, fs, hstack, hstage⟩ := System.stack_of_stage he.2
    exact h.iretq hstack hstage _
  | switchToUser => exact h.switchToUser (System.stack_nil he.2) hk
  | switchProcess =>
    rcases Nat.lt_or_ge g.machine.count 2 with hone | hcount
    · have hmachine : g.machine.step .switchProcess = g.machine := if_pos hone
      have hcontrol : g.toControl.step .switchProcess = g.toControl := if_pos hone
      have hframes : g.stepFrames .switchProcess = g.frames := if_pos hone
      rw [System.step, hmachine, hcontrol, hframes]
      exact h
    · have hframes : g.stepFrames .switchProcess = Function.update g.frames g.machine.current
          (⟨.switch, g.machine.top, g.machine.cpu⟩ :: g.stack) := if_neg (Nat.not_lt.mpr hcount)
      rw [System.step, hframes]
      exact h.switchProcess he.1 hcount (hk hcount) _
  | switchReturn =>
    obtain ⟨huser, hstage⟩ := he
    obtain ⟨f, fs, hstack, hstage⟩ := System.stack_of_stage hstage
    exact h.switchReturn (System.cs_of_user huser) hstack hstage (hready f (hstack ▸ rfl)) _
  -- a new process waits in `switch_task` without a frame, a clone with that of `resume_user`
  | initializeProcess rip block => exact h.initializeProcess rip hk _
  | cloneProcess rip userRsp block => exact h.cloneProcess rip userRsp hk _

/-- The processor boots in ring 0 as the first process, on the stack that `tss.rsp0` points
into. -/
structure System.Boot (g : System) : Prop where
  frames : ∀ i, g.frames i = []
  count : g.machine.count = 1
  current : g.machine.current = 0
  cs : g.machine.cpu.cs = kernelCode
  rsp : ∃ p, g.machine.cpu.rsp = .place p ∧ p.stack = g.machine.rsp0.stack
  layout : g.machine.layout.Apart
  swaps : g.machine.swaps = 0
  entered : g.entered = false

theorem System.Boot.inv (h : g.Boot) : SystemInv g := by
  obtain ⟨p, hp, -⟩ := h.rsp
  have hone : ∀ i < g.machine.count, i = g.machine.current := by
    intro i hi
    rw [h.count] at hi
    rw [h.current]
    omega
  refine ⟨?_, h.layout, fun i _ f hf => ?_, ?_, fun i hi hne => absurd (hone i hi) hne,
    fun i _ f hf => ?_⟩
  · rw [h.current, h.count]
    exact Nat.one_pos
  · rw [h.frames] at hf
    exact absurd hf List.not_mem_nil
  · show Atop _ (g.frames _)
    rw [h.frames]
    exact fun _ => ⟨p, hp⟩
  · rw [h.frames] at hf
    exact absurd hf List.not_mem_nil

/-- Every step restores what it takes from memory. -/
theorem SystemInv.restored (h : SystemInv g) (he : g.toControl.Enabled e)
    (hready : g.StackReady e) : g.Restored e := by
  cases e with
  | iretq =>
    intro f fs hstack
    obtain ⟨f', fs', hstack', hstage⟩ := System.stack_of_stage he.2
    obtain ⟨rfl, rfl⟩ := List.cons.inj (hstack.symm.trans hstack')
    exact h.iretq_cpu hstack hstage
  | switchReturn =>
    intro f fs hstack
    obtain ⟨f', fs', hstack', hstage⟩ := System.stack_of_stage he.2
    obtain ⟨rfl, rfl⟩ := List.cons.inj (hstack.symm.trans hstack')
    have hmem : f ∈ g.stack := hstack ▸ List.mem_cons_self ..
    obtain ⟨hregs, hrip, hrsp⟩ :=
      switchReturn_eq (h.frames _ h.current f hmem).1 hstage (hready f (hstack ▸ rfl))
    have hown := h.own
    rw [hstack] at hown
    exact ⟨hregs, hrip, hrsp.trans (hown.1.switch hstage).2.1.symm⟩
  | _ => trivial

/-- **Preservation over runs**: where pushes stay within their stacks, and nothing is pushed below
the stack pointer of a suspended process, all saved contexts stay in memory and are restored. -/
theorem contexts_preserved {es : List Event} (hboot : g.Boot)
    (hrun : Along System.step System.Guard g es) :
    Everywhere System.step System.Intact g es ∧ Along System.step System.Restored g es := by
  have hstep : ∀ g e, SystemInv g → g.Guard e → SystemInv (g.step e) := by
    rintro g e h ⟨he, hready, hk⟩
    exact h.step he hready hk
  constructor
  · exact hrun.everywhere hboot.inv hstep fun g h => h.intact
  · apply hrun.imp_of_invariant hboot.inv hstep
    rintro g e h ⟨he, hready, -⟩
    exact h.restored he hready

/-- The processor as it boots, two calls deep on the stack of which `KernelLoadGdt` took
`tss.rsp0`. -/
def bootSystem : System where
  machine :=
    { cpu := { initialContext (.value 0x100) ⟨0, 10⟩ with rflags := .value 0x202 }
      swaps := 0
      layout := ⟨1, fun _ => 0, fun _ => 0x2000⟩
      mem _ := .value 0
      rsps _ := ⟨0, 0⟩
      count := 1
      current := 0
      rsp0 := ⟨0, 12⟩
      idt vector := .value (0x1000 + vector)
      resumeUser := .value 0x3000 }
  frames _ := []
  entered := false

theorem bootSystem_boot : bootSystem.Boot where
  frames _ := rfl
  count := rfl
  current := rfl
  cs := rfl
  rsp := ⟨⟨0, 10⟩, rfl, rfl⟩
  layout i hi j hj hij := by
    change i < 1 at hi
    change j < 1 at hj
    omega
  swaps := rfl
  entered := rfl

/-- The boot process enters ring 3 and is interrupted there, a second one runs in ring 0. The switch
back is interrupted, too. -/
theorem contexts_preserved_boot :
    Along System.step System.Restored bootSystem
      [.initializeProcess (.value 0x2000) 0x10000, .switchToUser, .interrupt 32 0, .switchProcess,
        .switchReturn, .interrupt 32 0, .switchProcess, .push (.value 5), .interrupt 33 0, .leave,
        .iretq, .pop, .switchReturn, .leave, .iretq] :=
  (contexts_preserved bootSystem_boot (by decide +kernel)).2

/-- The boot process is interrupted in ring 0 and suspended, then the second one is interrupted
in ring 3: its frame is pushed at `tss.rsp0`, over what the boot process left. -/
theorem context_lost :
    Along System.step (fun g e => g.toControl.Enabled e ∧ g.StackReady e) bootSystem
      [.initializeProcess (.value 0x2000) 0x10000, .interrupt 32 0, .switchProcess, .switchReturn,
        .switchToUser, .interrupt 32 0, .switchProcess, .switchReturn] ∧
    ¬ (Everywhere System.step System.Intact bootSystem
      [.initializeProcess (.value 0x2000) 0x10000, .interrupt 32 0, .switchProcess, .switchReturn,
        .switchToUser, .interrupt 32 0, .switchProcess, .switchReturn] ∧
      Along System.step System.Restored bootSystem
      [.initializeProcess (.value 0x2000) 0x10000, .interrupt 32 0, .switchProcess, .switchReturn,
        .switchToUser, .interrupt 32 0, .switchProcess, .switchReturn]) := by
  refine ⟨by decide +kernel, ?_⟩
  rintro ⟨-, -, -, -, -, -, -, -, hlast, -⟩
  -- the second switch returns to the `r14` of the process in ring 3
  obtain ⟨-, hrip, -⟩ := hlast _ _ rfl
  exact absurd hrip (by decide +kernel)

end Cutesugar.Kernel.Irq
