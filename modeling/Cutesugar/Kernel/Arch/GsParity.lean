import Cutesugar.Kernel.Arch.Irq
import Cutesugar.Lib.Run

/-!
# Parity of `swapgs`

Which `swapgs` an exit executes depends on the frame it leaves, and the processor has one GS
base for all processes. Here every process has its frames to itself, so only their kinds are
kept: the stage of the path and whether it goes back to ring 3. The machine has its frames in
memory, and takes these steps as long as they stay there.

## Structure

- `Control`: the frames of all processes, and the count of `swapgs`.
- `ParityInv`: before ring 3 was entered the count is even; from then on it is odd in ring 0,
  but for the window between the `swapgs` of an exit and its `iretq`.
- `ParityInv.step`: the steps that keep it.
-/

namespace Cutesugar.Kernel.Irq

open Lib

/-! ## Control state -/

/-- A frame on a kernel stack: where its path stands, and whether it returns to ring 3. -/
structure ControlFrame where
  stage : Stage
  user : Bool
  deriving DecidableEq

/-- The frames of every process, innermost first, and the state of the processor. `entered` says
whether it was in ring 3 before. -/
structure Control where
  frames : ℕ → List ControlFrame
  count : ℕ
  current : ℕ
  user : Bool
  swaps : ℕ
  entered : Bool

/-- The frames of the current process. -/
abbrev Control.stack (c : Control) : List ControlFrame := c.frames c.current

abbrev Control.setStack (c : Control) (fs : List ControlFrame) : Control :=
  { c with frames := Function.update c.frames c.current fs }

/-- Where the innermost path of the current process stands. -/
def Control.stage (c : Control) : Option Stage := c.stack.head?.map ControlFrame.stage

/-- Code of the kernel runs, and not an exit path. -/
def Control.InCode (c : Control) : Prop :=
  c.user = false ∧ c.stage ≠ some .iret ∧ c.stage ≠ some .resume

/-- The code is not that which `switch_task` calls. -/
def Control.OutsideSwitch (c : Control) : Prop := c.InCode ∧ c.stage ≠ some .switch

/-- The process behind the current one. -/
def Control.next (c : Control) : ℕ := if c.current + 1 < c.count then c.current + 1 else 0

/-- The event is one that the code comes to. -/
def Control.Enabled (c : Control) : Event → Prop
  | .run _ _ _ => c.user = true ∨ c.InCode
  | .moveStack _ => c.user = true
  | .push _ => c.InCode
  | .pop => c.InCode
  | .interrupt _ _ => True
  | .leave => c.user = false ∧ c.stage = some .isr
  | .syscall _ => c.user = true
  | .leaveSyscall _ => c.user = false ∧ c.stage = some .syscall
  | .resumeUser => c.user = false ∧ c.stage = some .resume
  | .iretq => c.user = false ∧ c.stage = some .iret
  | .switchToUser => c.user = false ∧ c.stack = []
  | .switchProcess => c.OutsideSwitch
  | .switchReturn => c.user = false ∧ c.stage = some .switch
  | .initializeProcess _ _ => c.OutsideSwitch
  | .cloneProcess _ _ _ => c.OutsideSwitch

instance (c : Control) : Decidable c.InCode := inferInstanceAs (Decidable (_ ∧ _ ∧ _))

instance (c : Control) : Decidable c.OutsideSwitch := inferInstanceAs (Decidable (_ ∧ _))

instance (c : Control) : (e : Event) → Decidable (c.Enabled e)
  | .run _ _ _ => inferInstanceAs (Decidable (_ ∨ _))
  | .moveStack _ => inferInstanceAs (Decidable (_ = _))
  | .push _ => inferInstanceAs (Decidable c.InCode)
  | .pop => inferInstanceAs (Decidable c.InCode)
  | .interrupt _ _ => .isTrue trivial
  | .leave => inferInstanceAs (Decidable (_ ∧ _))
  | .syscall _ => inferInstanceAs (Decidable (_ = _))
  | .leaveSyscall _ => inferInstanceAs (Decidable (_ ∧ _))
  | .resumeUser => inferInstanceAs (Decidable (_ ∧ _))
  | .iretq => inferInstanceAs (Decidable (_ ∧ _))
  | .switchToUser => inferInstanceAs (Decidable (_ ∧ _))
  | .switchProcess => inferInstanceAs (Decidable c.OutsideSwitch)
  | .switchReturn => inferInstanceAs (Decidable (_ ∧ _))
  | .initializeProcess _ _ => inferInstanceAs (Decidable c.OutsideSwitch)
  | .cloneProcess _ _ _ => inferInstanceAs (Decidable c.OutsideSwitch)

theorem Control.stack_of_stage {c : Control} {stage : Stage} (h : c.stage = some stage) :
    ∃ u fs, c.stack = ⟨stage, u⟩ :: fs := by
  obtain ⟨f, hf, rfl⟩ := Option.map_eq_some_iff.mp h
  obtain ⟨fs, hfs⟩ := List.head?_eq_some_iff.mp hf
  exact ⟨f.user, fs, hfs⟩

/-- The frame of the current path goes on to its `iretq`, with or without a `swapgs`. -/
def Control.toIret (c : Control) (swap : Bool) : Control :=
  match c.stack with
  | [] => c
  | f :: fs => { c.setStack (⟨.iret, f.user⟩ :: fs) with swaps := c.swaps + swap.toNat }

def Control.returnsToUser (c : Control) : Bool :=
  match c.stack with
  | [] => false
  | f :: _ => f.user

def Control.step (c : Control) : Event → Control
  | .run _ _ _ => c
  | .moveStack _ => c
  | .push _ => c
  | .pop => c
  | .interrupt _ _ =>
    { c.setStack (⟨.isr, c.user⟩ :: c.stack) with user := false, swaps := c.swaps + c.user.toNat }
  | .leave => c.toIret c.returnsToUser
  | .syscall _ =>
    { c.setStack (⟨.syscall, c.user⟩ :: c.stack) with user := false, swaps := c.swaps + 1 }
  | .leaveSyscall _ => c.toIret true
  | .resumeUser => c.toIret true
  | .iretq =>
    { c.setStack c.stack.tail with
      user := c.returnsToUser
      entered := c.entered || c.returnsToUser }
  | .switchToUser => { c with user := true, entered := true }
  | .switchProcess =>
    if c.count < 2 then c
    else { c.setStack (⟨.switch, false⟩ :: c.stack) with current := c.next }
  | .switchReturn => c.setStack c.stack.tail
  | .initializeProcess _ _ =>
    { c with frames := Function.update c.frames c.count [⟨.switch, false⟩], count := c.count + 1 }
  | .cloneProcess _ _ _ =>
    { c with
      frames := Function.update c.frames c.count [⟨.switch, false⟩, ⟨.resume, true⟩]
      count := c.count + 1 }

/-- The processor boots in ring 0, as the first process. -/
def Control.boot : Control where
  frames _ := []
  count := 1
  current := 0
  user := false
  swaps := 0
  entered := false

/-! ## Conditions -/

/-- Ring 3 runs with an even count, and a system call gets the GS base of the kernel. -/
def Control.GsParity (c : Control) : Prop := c.user = true → c.swaps % 2 = 0

instance (c : Control) : Decidable c.GsParity := inferInstanceAs (Decidable (_ → _))

/-- The first entry into ring 3 is through `switch_to_user` and no later one is, `resume_user`
runs after it, and no process is switched from between the `swapgs` of an exit to ring 3 and its
`iretq`. -/
def Control.Kept (c : Control) : Event → Prop
  | .switchToUser => c.entered = false
  | .resumeUser => c.entered = true
  | .switchProcess => ⟨.iret, true⟩ ∉ c.stack
  | _ => True

instance (c : Control) : (e : Event) → Decidable (c.Kept e)
  | .run _ _ _ => .isTrue trivial
  | .moveStack _ => .isTrue trivial
  | .push _ => .isTrue trivial
  | .pop => .isTrue trivial
  | .interrupt _ _ => .isTrue trivial
  | .leave => .isTrue trivial
  | .syscall _ => .isTrue trivial
  | .leaveSyscall _ => .isTrue trivial
  | .resumeUser => inferInstanceAs (Decidable (_ = _))
  | .iretq => .isTrue trivial
  | .switchToUser => inferInstanceAs (Decidable (_ = _))
  | .switchProcess => inferInstanceAs (Decidable (_ ∉ _))
  | .switchReturn => .isTrue trivial
  | .initializeProcess _ _ => .isTrue trivial
  | .cloneProcess _ _ _ => .isTrue trivial

/-! ## Invariant -/

/-- Only the outermost frame returns to ring 3, and the frames of a system call and of
`resume_user` do. -/
def Shape : List ControlFrame → Prop
  | [] => True
  | f :: fs =>
    (f.user = true → fs = []) ∧ (f.stage = .syscall ∨ f.stage = .resume → f.user = true) ∧ Shape fs

/-- The count that ring 0 expects with these frames, after ring 3 was entered. -/
def pending (fs : List ControlFrame) : ℕ := if ⟨.iret, true⟩ ∈ fs then 0 else 1

structure ParityInv (c : Control) : Prop where
  current : c.current < c.count
  shape : ∀ i, Shape (c.frames i)
  inUser : c.user = true → c.stack = [] ∧ c.entered = true
  before : c.entered = false → c.swaps % 2 = 0 ∧
    ∀ i, ∀ f ∈ c.frames i, f.user = true → f.stage = .resume
  parity : c.entered = true → c.swaps % 2 = if c.user then 0 else pending c.stack
  window : ∀ i, i ≠ c.current → ⟨.iret, true⟩ ∉ c.frames i

variable {c : Control} {e : Event}

theorem ParityInv.boot : ParityInv Control.boot where
  current := Nat.one_pos
  shape _ := trivial
  inUser h := absurd h (by simp [Control.boot])
  before _ := ⟨rfl, fun _ _ hf => absurd hf List.not_mem_nil⟩
  parity h := absurd h (by simp [Control.boot])
  window _ _ := List.not_mem_nil

theorem ParityInv.gsParity (h : ParityInv c) : c.GsParity := fun huser => by
  rw [h.parity (h.inUser huser).2, if_pos huser]

/-- Before ring 3 was entered, only `resume_user` could return to it. -/
theorem ParityInv.resume_only (h : ParityInv c) (he : c.entered = false) {fs : List ControlFrame}
    (hstack : c.stack = fs) : ∀ f ∈ fs, f.user = true → f.stage = .resume := by
  rw [← hstack]
  exact (h.before he).2 c.current

@[simp] theorem setStack_stack (fs : List ControlFrame) :
    (c.setStack fs).stack = fs := Function.update_self ..

/-- A step that changes the frames of the current process keeps the invariant if its own part
of it is kept. -/
theorem ParityInv.setStack (h : ParityInv c) {fs : List ControlFrame} {user entered : Bool}
    {swaps : ℕ} (hshape : Shape fs) (huser : user = true → fs = [] ∧ entered = true)
    (hentered : entered = false → c.entered = false)
    (hbefore : entered = false → swaps % 2 = 0 ∧ ∀ f ∈ fs, f.user = true → f.stage = .resume)
    (hparity : entered = true → swaps % 2 = if user then 0 else pending fs) :
    ParityInv { c.setStack fs with user := user, swaps := swaps, entered := entered } where
  current := h.current
  shape i := by
    rcases eq_or_ne i c.current with rfl | hi
    · show Shape (Function.update c.frames _ _ _)
      rw [Function.update_self]
      exact hshape
    · show Shape (Function.update c.frames _ _ _)
      rw [Function.update_of_ne hi]
      -- the frames of the other processes stay
      exact h.shape i
  inUser hu := by
    show Function.update c.frames _ _ _ = [] ∧ _
    rw [Function.update_self]
    exact huser hu
  before he := by
    refine ⟨(hbefore he).1, fun i => ?_⟩
    rcases eq_or_ne i c.current with rfl | hi
    · show ∀ f ∈ Function.update c.frames _ _ _, _
      rw [Function.update_self]
      exact (hbefore he).2
    · show ∀ f ∈ Function.update c.frames _ _ _, _
      rw [Function.update_of_ne hi]
      exact (h.before (hentered he)).2 i
  parity he := by
    show swaps % 2 = if user = true then 0 else pending (Function.update c.frames _ _ _)
    rw [Function.update_self]
    exact hparity he
  window i hi := by
    show _ ∉ Function.update c.frames _ _ _
    rw [Function.update_of_ne hi]
    exact h.window i hi

/-- **Exit**: the frame goes on to its `iretq`; a `swapgs` belongs to a return to ring 3. -/
theorem ParityInv.toIret (h : ParityInv c) (huser : c.user = false) {f : ControlFrame}
    {fs : List ControlFrame} (hstack : c.stack = f :: fs) (hstage : f.stage ≠ .iret)
    {swap : Bool} (hswap : swap = f.user)
    (hresume : f.stage = .resume → c.entered = true) : ParityInv (c.toIret swap) := by
  subst hswap
  have hshape : Shape c.stack := h.shape c.current
  rw [hstack] at hshape
  obtain ⟨houter, -, hrest⟩ := hshape
  have heq : c.toIret f.user = { c.setStack (⟨.iret, f.user⟩ :: fs) with
      user := c.user, swaps := c.swaps + f.user.toNat, entered := c.entered } := by
    rw [Control.toIret]
    simp only [hstack]
  rw [heq]
  apply h.setStack
  · exact ⟨houter, fun hstage => by simp at hstage, hrest⟩
  · exact fun hu => absurd (huser.symm.trans hu) (by simp)
  · exact id
  · intro he
    obtain ⟨heven, -⟩ := h.before he
    have hall := h.resume_only he hstack
    have hf : f.user = false := by
      cases hf : f.user with
      | false => rfl
      | true =>
        have hstage := hall f (List.mem_cons_self ..) hf
        exact absurd (he.symm.trans (hresume hstage)) (by simp)
    rw [hf]
    refine ⟨heven, fun g hg hgu => ?_⟩
    rcases List.mem_cons.mp hg with rfl | hg
    · exact absurd hgu (by simp)
    · exact hall g (List.mem_cons_of_mem f hg) hgu
  · intro he
    have hparity := h.parity he
    rw [huser, hstack] at hparity
    rw [huser]
    simp only [Bool.false_eq_true, if_false, pending, List.mem_cons] at hparity ⊢
    have hne : (⟨.iret, true⟩ : ControlFrame) ≠ f := by
      rintro rfl
      exact hstage rfl
    cases hf : f.user with
    | true =>
      rw [houter hf] at hparity ⊢
      simp only [hne, List.not_mem_nil, or_false, if_false] at hparity
      simp only [Bool.toNat_true, true_or, if_true]
      omega
    | false => simpa [hne] using hparity

/-- **Creation**: a new process waits outside of the window. -/
theorem ParityInv.create (h : ParityInv c) (huser : c.user = false) {fs : List ControlFrame}
    (hshape : Shape fs) (hresume : ∀ f ∈ fs, f.user = true → f.stage = .resume)
    (hwindow : ⟨.iret, true⟩ ∉ fs) :
    ParityInv { c with frames := Function.update c.frames c.count fs, count := c.count + 1 } := by
  have hne : c.current ≠ c.count := h.current.ne
  have hframes : ∀ P : List ControlFrame → Prop, P fs → ∀ i, P (c.frames i) →
      P (Function.update c.frames c.count fs i) := by
    intro P hfs i hi
    rcases eq_or_ne i c.count with rfl | hic
    · rwa [Function.update_self]
    · rwa [Function.update_of_ne hic]
  refine ⟨Nat.lt_succ_of_lt h.current, fun i => hframes _ hshape i (h.shape i),
    fun hu => absurd (huser.symm.trans hu) (by simp), fun he => ⟨(h.before he).1, fun i => ?_⟩,
    fun he => ?_, fun i hi => hframes (fun l => _ ∉ l) hwindow i (h.window i hi)⟩
  · exact hframes (fun l => ∀ f ∈ l, f.user = true → f.stage = .resume) hresume i
      ((h.before he).2 i)
  · show c.swaps % 2 = if c.user = true then 0
      else pending (Function.update c.frames c.count fs c.current)
    rw [Function.update_of_ne hne]
    exact h.parity he

/-- **Switch**: the process that is left waits outside of the window. -/
theorem ParityInv.switch (h : ParityInv c) (huser : c.user = false)
    (hk : ⟨.iret, true⟩ ∉ c.stack) (hcount : ¬ c.count < 2) :
    ParityInv { c.setStack (⟨.switch, false⟩ :: c.stack) with current := c.next } := by
  have hnext : c.next < c.count := by
    rw [Control.next]
    split_ifs
    · assumption
    · omega
  have hframes : ∀ P : List ControlFrame → Prop, P (⟨.switch, false⟩ :: c.stack) → ∀ i,
      P (c.frames i) → P (Function.update c.frames c.current (⟨.switch, false⟩ :: c.stack) i) := by
    intro P hfs i hi
    rcases eq_or_ne i c.current with rfl | hic
    · rwa [Function.update_self]
    · rwa [Function.update_of_ne hic]
  have hnone : ⟨.iret, true⟩ ∉ (⟨.switch, false⟩ :: c.stack : List ControlFrame) := by
    simpa using hk
  have hwindow : ∀ i, ⟨.iret, true⟩ ∉
      Function.update c.frames c.current (⟨.switch, false⟩ :: c.stack) i := by
    intro i
    rcases eq_or_ne i c.current with rfl | hi
    · rwa [Function.update_self]
    · rw [Function.update_of_ne hi]
      exact h.window i hi
  refine ⟨hnext, fun i => hframes _ ⟨by simp, by simp, h.shape _⟩ i (h.shape i),
    fun hu => absurd (huser.symm.trans hu) (by simp), fun he => ⟨(h.before he).1, fun i => ?_⟩,
    fun he => ?_, fun i _ => hwindow i⟩
  · refine hframes (fun l => ∀ f ∈ l, f.user = true → f.stage = .resume) (fun f hf hu => ?_) i
      ((h.before he).2 i)
    rcases List.mem_cons.mp hf with rfl | hf
    · exact absurd hu (by simp)
    · exact (h.before he).2 _ f hf hu
  · have hparity := h.parity he
    rw [huser] at hparity
    show c.swaps % 2 = if c.user = true then 0 else
      pending (Function.update c.frames c.current (⟨.switch, false⟩ :: c.stack) c.next)
    rw [huser, hparity, pending, pending, if_neg hk, if_neg (hwindow _)]

/-- **Interrupt**: the entry swaps exactly if it comes from ring 3, which has no frames. -/
theorem ParityInv.interrupt (h : ParityInv c) (vector pad : ℕ) :
    ParityInv (c.step (.interrupt vector pad)) := by
  apply h.setStack
  · refine ⟨fun hu => (h.inUser hu).1, fun hstage => by simp at hstage, h.shape _⟩
  · exact fun hu => absurd hu (by simp)
  · exact id
  · -- ring 3 was not entered yet, so the interrupt comes from the kernel and swaps nothing
    intro hentered
    obtain ⟨heven, hall⟩ := h.before hentered
    have hu : c.user = false := by
      cases hu : c.user with
      | false => rfl
      | true => exact absurd (hentered.symm.trans (h.inUser hu).2) (by simp)
    rw [hu]
    refine ⟨heven, fun f hf hfu => ?_⟩
    rcases List.mem_cons.mp hf with rfl | hf
    · exact absurd hfu (by simp)
    · exact hall _ f hf hfu
  · intro hentered
    have hparity := h.parity hentered
    simp only [Bool.false_eq_true, if_false]
    cases hu : c.user with
    | true =>
      -- the only frame is that of the interrupt
      rw [(h.inUser hu).1]
      rw [hu] at hparity
      simp only [if_true] at hparity
      simp only [Bool.toNat_true, pending, List.mem_singleton, ControlFrame.mk.injEq,
        reduceCtorEq, false_and, if_false]
      omega
    | false =>
      rw [hu] at hparity
      simpa [pending] using hparity

/-- **System call**: ring 3 has an even count, and the entry always swaps. -/
theorem ParityInv.syscall (h : ParityInv c) (hu : c.user = true) (pad : ℕ) :
    ParityInv (c.step (.syscall pad)) := by
  obtain ⟨hnil, hentered⟩ := h.inUser hu
  have hparity := h.parity hentered
  rw [hu] at hparity
  simp only [if_true] at hparity
  apply h.setStack
  · refine ⟨fun _ => hnil, fun _ => hu, h.shape _⟩
  · exact fun hu => absurd hu (by simp)
  · exact id
  · exact fun hfalse => absurd (hfalse.symm.trans hentered) (by simp)
  · intro _
    rw [hnil]
    simp only [Bool.false_eq_true, if_false, pending, List.mem_singleton,
      ControlFrame.mk.injEq, reduceCtorEq, false_and]
    omega

/-- **Return**: one into ring 3 has its `swapgs` behind it. -/
theorem ParityInv.iretq (h : ParityInv c) (huser : c.user = false) (hstage : c.stage = some .iret) :
    ParityInv (c.step .iretq) := by
  obtain ⟨u, fs, hstack⟩ := Control.stack_of_stage hstage
  have hshape : Shape c.stack := h.shape c.current
  rw [hstack] at hshape
  obtain ⟨houter, -, hrest⟩ := hshape
  have hret : c.returnsToUser = u := by
    rw [Control.returnsToUser]
    simp only [hstack]
  show ParityInv { c.setStack c.stack.tail with
    user := c.returnsToUser, swaps := c.swaps, entered := c.entered || c.returnsToUser }
  rw [hret, hstack, List.tail_cons]
  apply h.setStack
  · exact hrest
  · intro hu
    exact ⟨houter hu, by rw [hu, Bool.or_true]⟩
  · exact fun hfalse => (Bool.or_eq_false_iff.mp hfalse).1
  · intro hfalse
    have he := (Bool.or_eq_false_iff.mp hfalse).1
    have hall := h.resume_only he hstack
    exact ⟨(h.before he).1, fun f hf => hall f (List.mem_cons_of_mem _ hf)⟩
  · intro hentered
    cases u with
    | true =>
      -- a return to ring 3 is behind its `swapgs`
      have hbefore : c.entered = true := by
        cases hc : c.entered with
        | true => rfl
        | false =>
          have hstage := h.resume_only hc hstack ⟨.iret, true⟩ (List.mem_cons_self ..) rfl
          exact absurd hstage (by simp)
      have hparity := h.parity hbefore
      rw [huser, hstack] at hparity
      simpa [pending] using hparity
    | false =>
      rw [Bool.or_false] at hentered
      have hparity := h.parity hentered
      rw [huser, hstack] at hparity
      simpa [pending] using hparity

/-- **Resumption**: a process that waited in `switch_task` goes on in ring 0. -/
theorem ParityInv.switchReturn (h : ParityInv c) (huser : c.user = false)
    (hstage : c.stage = some .switch) : ParityInv (c.step .switchReturn) := by
  obtain ⟨u, fs, hstack⟩ := Control.stack_of_stage hstage
  obtain ⟨-, -, hrest⟩ : Shape (⟨.switch, u⟩ :: fs) := hstack ▸ h.shape c.current
  show ParityInv { c.setStack c.stack.tail with
    user := c.user, swaps := c.swaps, entered := c.entered }
  rw [hstack, List.tail_cons]
  apply h.setStack
  · exact hrest
  · exact fun hu => absurd (huser.symm.trans hu) (by simp)
  · exact id
  · intro hentered
    have hall := h.resume_only hentered hstack
    exact ⟨(h.before hentered).1, fun f hf => hall f (List.mem_cons_of_mem _ hf)⟩
  · intro hentered
    have hparity := h.parity hentered
    rw [huser, hstack] at hparity
    simpa [huser, pending] using hparity

/-- **Step lemma.** -/
theorem ParityInv.step (h : ParityInv c) (he : c.Enabled e) (hk : c.Kept e) :
    ParityInv (c.step e) := by
  cases e with
  | run regs rip rflags => exact h
  | moveStack rsp => exact h
  | push w => exact h
  | pop => exact h
  | interrupt vector pad => exact h.interrupt vector pad
  | leave =>
    obtain ⟨huser, hstage⟩ := he
    obtain ⟨u, fs, hstack⟩ := Control.stack_of_stage hstage
    have hswap : c.returnsToUser = u := by
      rw [Control.returnsToUser]
      simp only [hstack]
    exact h.toIret huser hstack (by simp) hswap (fun hstage => by simp at hstage)
  | syscall pad => exact h.syscall he pad
  | leaveSyscall result =>
    obtain ⟨huser, hstage⟩ := he
    obtain ⟨u, fs, hstack⟩ := Control.stack_of_stage hstage
    have hshape : Shape c.stack := h.shape c.current
    rw [hstack] at hshape
    have hu : u = true := hshape.2.1 (.inl rfl)
    exact h.toIret huser hstack (by simp) hu.symm (fun hstage => by simp at hstage)
  | resumeUser =>
    obtain ⟨huser, hstage⟩ := he
    obtain ⟨u, fs, hstack⟩ := Control.stack_of_stage hstage
    have hshape : Shape c.stack := h.shape c.current
    rw [hstack] at hshape
    have hu : u = true := hshape.2.1 (.inr rfl)
    exact h.toIret huser hstack (by simp) hu.symm fun _ => hk
  | iretq => exact h.iretq he.1 he.2
  | switchToUser =>
    obtain ⟨-, hnil⟩ := he
    obtain ⟨heven, -⟩ := h.before hk
    exact ⟨h.current, h.shape, fun _ => ⟨hnil, rfl⟩, fun hfalse => absurd hfalse (by simp [Control.step]),
      fun _ => heven, h.window⟩
  | switchProcess =>
    obtain ⟨⟨huser, -⟩, -⟩ := he
    rw [Control.step]
    split_ifs with hcount
    · exact h
    exact h.switch huser hk hcount
  | switchReturn => exact h.switchReturn he.1 he.2
  | initializeProcess rip block =>
    exact h.create he.1.1 ⟨by simp, by simp, trivial⟩ (by simp) (by simp)
  | cloneProcess rip userRsp block =>
    refine h.create he.1.1 ⟨by simp, by simp, fun _ => rfl, fun _ => rfl, trivial⟩
      (fun f hf hu => ?_) (by simp)
    rcases List.mem_cons.mp hf with rfl | hf
    · exact absurd hu (by simp)
    · rw [List.mem_singleton.mp hf]

end Cutesugar.Kernel.Irq
