import Cutesugar.Kernel.Arch.GsParity

/-!
# Saved contexts

Every entry path and every switch leaves words on a kernel stack from which a context is restored
later. The processor comes from ring 3 to one place, `tss.rsp0`, whatever process is current, and
the stacks have sizes, so these words stay as they are only while pushes stay within their stack and
no process is suspended with a stack pointer beyond the place where another one pushes.

## Structure

- `System`: the machine with the contexts that were saved, and where.
- `System.Kept`: what is asked of a push, and of a new stack.
- `SystemInv`: memory holds these contexts, all below the stack pointer of their process.
- `contexts_preserved`: the runs that keep them; `toControl_step`: there the machine does what
  the control state says.
-/

namespace Cutesugar.Kernel.Irq

open Lib

/-! ## Saved contexts -/

/-- A frame of an entry path or of a switch: where it is, and the context it restores. -/
structure SavedFrame where
  stage : Stage
  base : Place
  context : Context

/-- The words of the frame that are still to be popped. -/
def SavedFrame.size (f : SavedFrame) : ℕ := if f.stage = .iret ∨ f.stage = .switch then 7 else 22

/-- Memory holds the words that the context is restored from. -/
structure SavedFrame.InMemory (L : StackLayout) (mem : ℕ → Word) (f : SavedFrame) : Prop where
  iret : f.stage ≠ .switch → L.WordsAt mem f.base (iretWords f.context)
  regs : f.stage ≠ .switch → f.stage ≠ .iret →
    L.WordsAt mem (f.base.up 7) (pushOrder.map f.context.regs)
  switch : f.stage = .switch → L.WordsAt mem f.base (switchWords f.context)

/-- The machine, and the frames of every process, innermost first. `entered` says whether ring 3 was
entered before. -/
structure System where
  machine : Machine
  frames : ℕ → List SavedFrame
  entered : Bool

/-- The frames of the current process. -/
abbrev System.stack (g : System) : List SavedFrame := g.frames g.machine.current

/-- The control state of the system. -/
def System.toControl (g : System) : Control where
  frames i := (g.frames i).map fun f => ⟨f.stage, f.context.cs != kernelCode⟩
  count := g.machine.count
  current := g.machine.current
  user := g.machine.cpu.cs != kernelCode
  swaps := g.machine.swaps
  entered := g.entered

/-- The innermost frame goes on to its `iretq`, with a result of a system call. -/
def framesToIret (result : Option Word) : List SavedFrame → List SavedFrame
  | [] => []
  | f :: fs =>
    { f with
      stage := .iret
      context := { f.context with
        regs := match result with
          | none => f.context.regs
          | some w => Function.update f.context.regs .rax w } } :: fs

/-- The frames that a new process waits with in `switch_task`, on the stack with this number. -/
def initialFrames (rip : Word) (stack : ℕ) : List SavedFrame :=
  [⟨.switch, ⟨stack, 0⟩, initialContext rip ⟨stack, 0⟩⟩]

def clonedFrames (rip userRsp resumeUser : Word) (stack : ℕ) : List SavedFrame :=
  [⟨.switch, ⟨stack, 22⟩, initialContext resumeUser ⟨stack, 22⟩⟩,
    ⟨.resume, ⟨stack, 0⟩, clonedContext rip userRsp⟩]

def System.stepFrames (g : System) : Event → ℕ → List SavedFrame
  | .interrupt _ pad => Function.update g.frames g.machine.current
      (⟨.isr, g.machine.entry pad, g.machine.cpu⟩ :: g.stack)
  | .leave => Function.update g.frames g.machine.current (framesToIret none g.stack)
  | .syscall pad => Function.update g.frames g.machine.current
      (⟨.syscall, g.machine.entry pad, g.machine.cpu⟩ :: g.stack)
  | .leaveSyscall result =>
    Function.update g.frames g.machine.current (framesToIret result g.stack)
  | .resumeUser => Function.update g.frames g.machine.current (framesToIret none g.stack)
  | .iretq => Function.update g.frames g.machine.current g.stack.tail
  | .switchProcess =>
    if g.machine.count < 2 then g.frames
    else Function.update g.frames g.machine.current
      (⟨.switch, g.machine.top, g.machine.cpu⟩ :: g.stack)
  | .switchReturn => Function.update g.frames g.machine.current g.stack.tail
  | .initializeProcess rip _ =>
    Function.update g.frames g.machine.count (initialFrames rip g.machine.layout.count)
  | .cloneProcess rip userRsp _ => Function.update g.frames g.machine.count
      (clonedFrames rip userRsp g.machine.resumeUser g.machine.layout.count)
  | _ => g.frames

def System.step (g : System) (e : Event) : System where
  machine := g.machine.step e
  frames := g.stepFrames e
  entered := (g.toControl.step e).entered

/-! ## Conditions -/

/-- The stack pointer is where the code that comes to the event has it: an exit starts at the
frame of its path, and code pops only what it pushed. -/
def System.StackReady (g : System) : Event → Prop
  | .pop => (∀ f ∈ g.stack.head?, f.base.depth + f.size < g.machine.top.depth) ∧
      0 < g.machine.top.depth
  | .leave => ∀ f ∈ g.stack.head?, g.machine.top = f.base.up 22
  | .leaveSyscall _ => ∀ f ∈ g.stack.head?, g.machine.top = f.base.up 22
  | .resumeUser => ∀ f ∈ g.stack.head?, g.machine.top = f.base.up 22
  | .switchReturn => ∀ f ∈ g.stack.head?, g.machine.top = f.base.up 7
  | _ => True

/-- `n` words fit on the stack at the place, and no suspended process has its stack pointer beyond
it. -/
structure System.Clear (g : System) (p : Place) (n : ℕ) : Prop where
  within : g.machine.layout.Within p n
  others : ∀ i < g.machine.count, i ≠ g.machine.current →
    (g.machine.rsps i).stack = p.stack → (g.machine.rsps i).depth ≤ p.depth

/-- Whatever is pushed fits on its stack, and no suspended process has its stack pointer beyond that
place of the stack. From ring 3 this is about `tss.rsp0`. The block of a new stack is none of those
in use. -/
def System.Kept (g : System) : Event → Prop
  | .push _ => g.Clear g.machine.top 1
  | .interrupt _ pad => g.Clear (g.machine.entry pad) 22
  | .syscall pad => g.Clear (g.machine.entry pad) 22
  | .switchToUser => g.Clear g.machine.top 5
  | .switchProcess => 2 ≤ g.machine.count → g.Clear g.machine.top 7
  | .initializeProcess _ block => g.machine.layout.Fresh block initialRoom
  | .cloneProcess _ _ block => g.machine.layout.Fresh block clonedRoom
  | _ => True

/-- The events that the code comes to, and what the preservation of contexts asks of them. -/
def System.Guard (g : System) (e : Event) : Prop :=
  g.toControl.Enabled e ∧ g.StackReady e ∧ g.Kept e

instance (g : System) (p : Place) (n : ℕ) : Decidable (g.Clear p n) :=
  decidable_of_iff (g.machine.layout.Within p n ∧ ∀ i < g.machine.count, i ≠ g.machine.current →
    (g.machine.rsps i).stack = p.stack → (g.machine.rsps i).depth ≤ p.depth)
    ⟨fun h => ⟨h.1, h.2⟩, fun h => ⟨h.within, h.others⟩⟩

instance (g : System) : (e : Event) → Decidable (g.StackReady e)
  | .run _ _ _ => .isTrue trivial
  | .moveStack _ => .isTrue trivial
  | .push _ => .isTrue trivial
  | .pop => inferInstanceAs (Decidable (_ ∧ _))
  | .interrupt _ _ => .isTrue trivial
  | .leave => inferInstanceAs (Decidable (∀ f ∈ g.stack.head?, _))
  | .syscall _ => .isTrue trivial
  | .leaveSyscall _ => inferInstanceAs (Decidable (∀ f ∈ g.stack.head?, _))
  | .resumeUser => inferInstanceAs (Decidable (∀ f ∈ g.stack.head?, _))
  | .iretq => .isTrue trivial
  | .switchToUser => .isTrue trivial
  | .switchProcess => .isTrue trivial
  | .switchReturn => inferInstanceAs (Decidable (∀ f ∈ g.stack.head?, _))
  | .initializeProcess _ _ => .isTrue trivial
  | .cloneProcess _ _ _ => .isTrue trivial

instance (g : System) : (e : Event) → Decidable (g.Kept e)
  | .run _ _ _ => .isTrue trivial
  | .moveStack _ => .isTrue trivial
  | .push _ => inferInstanceAs (Decidable (g.Clear _ _))
  | .pop => .isTrue trivial
  | .interrupt _ _ => inferInstanceAs (Decidable (g.Clear _ _))
  | .leave => .isTrue trivial
  | .syscall _ => inferInstanceAs (Decidable (g.Clear _ _))
  | .leaveSyscall _ => .isTrue trivial
  | .resumeUser => .isTrue trivial
  | .iretq => .isTrue trivial
  | .switchToUser => inferInstanceAs (Decidable (g.Clear _ _))
  | .switchProcess => inferInstanceAs (Decidable (_ → _))
  | .switchReturn => .isTrue trivial
  | .initializeProcess _ _ => inferInstanceAs (Decidable (StackLayout.Fresh _ _ _))
  | .cloneProcess _ _ _ => inferInstanceAs (Decidable (StackLayout.Fresh _ _ _))

instance (g : System) (e : Event) : Decidable (g.Guard e) := inferInstanceAs (Decidable (_ ∧ _ ∧ _))

/-- The words of every frame are in memory, and the field `rsp` of a suspended process is the end of
the words that it left for `switch_task`. -/
def System.Intact (g : System) : Prop :=
  ∀ i < g.machine.count, (∀ f ∈ g.frames i, f.InMemory g.machine.layout g.machine.mem) ∧
    (i ≠ g.machine.current → ∃ f fs, g.frames i = f :: fs ∧ f.stage = .switch ∧
      g.machine.rsps i = f.base.up 7)

/-- An `iretq` restores the context its frame was made of, and the end of a switch the callee-saved
registers, `rip` and `rsp` that the process was suspended with. -/
def System.Restored (g : System) : Event → Prop
  | .iretq => ∀ f fs, g.stack = f :: fs → g.machine.iretq.cpu = f.context
  | .switchReturn => ∀ f fs, g.stack = f :: fs →
      (∀ r ∈ calleeSaved, g.machine.switchReturn.cpu.regs r = f.context.regs r) ∧
      g.machine.switchReturn.cpu.rip = f.context.rip ∧
      g.machine.switchReturn.cpu.rsp = f.context.rsp
  | _ => True

/-! ## Frames below a stack pointer -/

/-- A context in which the frame is the innermost on the stack, with others behind it. Behind a frame
that waits for its `iretq` nothing is on the stack and the registers are restored; system calls come
from ring 3; a switch pushes where the stack pointer is, and is not called by an exit path. -/
structure FrameBelow (c : Context) (f : SavedFrame) (fs : List SavedFrame) : Prop where
  cs : c.cs = kernelCode
  rsp : ∃ p, c.rsp = .place p ∧ p.stack = f.base.stack ∧ f.base.depth + f.size ≤ p.depth
  iret : f.stage = .iret → c.rsp = .place (f.base.up 7) ∧ c.regs = f.context.regs
  syscall : f.stage = .syscall → f.context.cs ≠ kernelCode
  switch : f.stage = .switch → f.context.cs = kernelCode ∧ f.context.rsp = .place f.base ∧
    ∀ f' ∈ fs.head?, f'.stage ≠ .iret
  kernel : f.context.cs = kernelCode →
    ∃ q, f.context.rsp = .place q ∧ q.stack = f.base.stack ∧ q.depth ≤ f.base.depth
  user : f.context.cs ≠ kernelCode → fs = []

/-- A context in which the frames are on the stack below. -/
def Atop : Context → List SavedFrame → Prop
  | c, [] => c.cs = kernelCode → ∃ p, c.rsp = .place p
  | c, f :: fs => FrameBelow c f fs ∧ Atop f.context fs

variable {g : System} {L : StackLayout} {mem : ℕ → Word} {c : Context} {f : SavedFrame}
  {fs : List SavedFrame} {p : Place} {n : ℕ} {e : Event}

theorem Atop.place (h : Atop c fs) (hc : c.cs = kernelCode) : ∃ p, c.rsp = .place p := by
  cases fs with
  | nil => exact h hc
  | cons f fs =>
    obtain ⟨p, hp, -⟩ := h.1.rsp
    exact ⟨p, hp⟩

/-- In ring 3 no frame is on the stack. -/
theorem Atop.user (h : Atop c fs) (hc : c.cs ≠ kernelCode) : fs = [] := by
  cases fs with
  | nil => rfl
  | cons f fs => exact absurd h.1.cs hc

/-- All frames are below the stack pointer. -/
theorem Atop.below (h : Atop c fs) (hp : c.rsp = .place p) :
    ∀ f ∈ fs, f.base.stack = p.stack ∧ f.base.depth + f.size ≤ p.depth := by
  induction fs generalizing c p with
  | nil => exact fun f hf => absurd hf List.not_mem_nil
  | cons f fs ih =>
    obtain ⟨hbelow, hrest⟩ := h
    obtain ⟨q, hq, hstack, hdepth⟩ := hbelow.rsp
    obtain rfl : q = p := Word.place.inj (hq.symm.trans hp)
    intro x hx
    rcases List.mem_cons.mp hx with rfl | hx
    · exact ⟨hstack.symm, hdepth⟩
    · -- the frames behind are below the stack pointer that this one saved
      by_cases hcs : f.context.cs = kernelCode
      · obtain ⟨q', hq', hstack', hdepth'⟩ := hbelow.kernel hcs
        obtain ⟨hx₁, hx₂⟩ := ih hrest hq' x hx
        exact ⟨hx₁.trans (hstack'.trans hstack.symm), by omega⟩
      · rw [hbelow.user hcs] at hx
        exact absurd hx List.not_mem_nil

/-- Code that is not an exit path may change the registers and move the stack pointer above the
frames. -/
theorem Atop.move (h : Atop c fs) {c' : Context} {q : Place} (hcs : c'.cs = c.cs)
    (hrsp : c'.rsp = .place q) (hcode : ∀ f ∈ fs.head?, f.stage ≠ .iret)
    (hq : ∀ f ∈ fs.head?, q.stack = f.base.stack ∧ f.base.depth + f.size ≤ q.depth) :
    Atop c' fs := by
  cases fs with
  | nil => exact fun _ => ⟨q, hrsp⟩
  | cons f fs =>
    obtain ⟨hbelow, hrest⟩ := h
    exact ⟨⟨hcs.trans hbelow.cs, ⟨q, hrsp, hq f rfl⟩, fun hstage => absurd hstage (hcode f rfl),
      hbelow.syscall, hbelow.switch, hbelow.kernel, hbelow.user⟩, hrest⟩

theorem SavedFrame.size_eq (h : f.stage ≠ .iret) (h' : f.stage ≠ .switch) : f.size = 22 :=
  if_neg fun hor => hor.elim h h'

/-- The frame of an entry is on top of the frames before. -/
theorem Atop.enter (h : Atop c fs) {c' : Context} (hcs : c'.cs = kernelCode)
    (hframe : f.context = c) (hstage : f.stage ≠ .iret) (hswitch : f.stage ≠ .switch)
    (hsyscall : f.stage = .syscall → c.cs ≠ kernelCode) (hrsp : c'.rsp = .place (f.base.up 22))
    (hbase : c.cs = kernelCode → ∀ p, c.rsp = .place p →
      p.stack = f.base.stack ∧ p.depth ≤ f.base.depth) : Atop c' (f :: fs) := by
  subst hframe
  refine ⟨⟨hcs, ⟨_, hrsp, rfl, ?_⟩, fun hiret => absurd hiret hstage, hsyscall,
    fun hsw => absurd hsw hswitch, fun hc => ?_, h.user⟩, h⟩
  · rw [SavedFrame.size_eq hstage hswitch]
    exact le_rfl
  · obtain ⟨p, hp⟩ := h.place hc
    exact ⟨p, hp, hbase hc p hp⟩

/-- The words of a switch are on top of the frames before. -/
theorem Atop.switch (h : Atop c fs) (hc : c.cs = kernelCode) (hp : c.rsp = .place p)
    (hcode : ∀ f ∈ fs.head?, f.stage ≠ .iret) {c' : Context} (hcs : c'.cs = kernelCode)
    (hrsp : c'.rsp = .place (p.up 7)) : Atop c' (⟨.switch, p, c⟩ :: fs) :=
  ⟨⟨hcs, ⟨_, hrsp, rfl, le_rfl⟩, fun hstage => by simp at hstage, fun hstage => by simp at hstage,
    fun _ => ⟨hc, hp, hcode⟩, fun _ => ⟨p, hp, rfl, le_rfl⟩, h.user⟩, h⟩

/-! ## Words in memory -/

theorem length_iretWords (c : Context) : (iretWords c).length = 5 := rfl

/-- A frame outlives a push apart from it. -/
theorem SavedFrame.InMemory.pushAt (h : f.InMemory L mem) (hL : L.Apart)
    (hf : L.Within f.base f.size) {ws : List Word} (hp : L.Within p ws.length)
    (hsep : Separate f.base f.size p ws.length) : f.InMemory L (L.pushAt mem p ws) where
  iret hstage := by
    have hsize : 5 ≤ f.size := by
      rw [SavedFrame.size]
      split_ifs <;> omega
    exact (h.iret hstage).pushAt hL (hf.mono hsize) hp (hsep.mono hsize le_rfl)
  regs hstage hiret := by
    have hsize : f.size = 22 := SavedFrame.size_eq hiret hstage
    rw [hsize] at hf hsep
    refine (h.regs hstage hiret).pushAt hL (hf.up (show 7 + 15 ≤ 22 by decide)) hp fun hstack => ?_
    show f.base.depth + 7 + 15 ≤ p.depth ∨ p.depth + ws.length ≤ f.base.depth + 7
    rcases hsep hstack with hbelow | habove <;> omega
  switch hstage := by
    have hsize : 7 ≤ f.size := by
      rw [SavedFrame.size]
      split_ifs <;> omega
    exact (h.switch hstage).pushAt hL (hf.mono hsize) hp (hsep.mono hsize le_rfl)

/-- A frame stays where it is when there is one more stack. -/
theorem SavedFrame.InMemory.add (h : f.InMemory L mem) (hf : L.Within f.base f.size)
    (start room : ℕ) : f.InMemory (L.add start room) mem where
  iret hstage := (h.iret hstage).add hf.1
  regs hstage hiret := (h.regs hstage hiret).add hf.1
  switch hstage := (h.switch hstage).add hf.1

/-- An entry path leaves its frame in memory. -/
theorem inMemory_frameWords {code vector : Word} {stage : Stage} (hstage : stage ≠ .switch) :
    SavedFrame.InMemory L (L.pushAt mem p (frameWords c [code, vector])) ⟨stage, p, c⟩ := by
  have hwords := L.wordsAt_pushAt mem p (frameWords c [code, vector])
  rw [frameWords, StackLayout.wordsAt_append, StackLayout.wordsAt_append] at hwords
  exact ⟨fun _ => hwords.1.1, fun _ _ => hwords.2, fun h => absurd h hstage⟩

/-- The words of a switch are left in memory. -/
theorem inMemory_switchWords :
    SavedFrame.InMemory L (L.pushAt mem p (switchWords c)) ⟨.switch, p, c⟩ :=
  ⟨fun h => absurd rfl h, fun h => absurd rfl h, fun _ => L.wordsAt_pushAt mem p (switchWords c)⟩

/-- The place of a register in a frame. -/
theorem getElem?_pushOrder (regs : Reg → Word) (r : Reg) :
    (pushOrder.map regs)[pushOrder.idxOf r]? = some (regs r) := by
  cases r <;> rfl

theorem idxOf_pushOrder_lt (r : Reg) : pushOrder.idxOf r < 15 := by
  cases r <;> decide

/-- The place of a callee-saved register among the words of a switch. -/
theorem getElem?_switchWords (c : Context) {r : Reg} (hr : r ∈ calleeSaved) :
    (switchWords c)[1 + calleeSaved.idxOf r]? = some (c.regs r) := by
  cases r
  all_goals first
    | rfl
    | exact absurd hr (by decide)

/-- What is read below the stack pointer is a word above a place. -/
theorem below_eq {m : Machine} (htop : m.top = p.up n) {k : ℕ} (hk : k ≤ n) :
    m.below k = m.mem (m.layout.cell p + (n - k)) := by
  rw [Machine.below, htop, StackLayout.cell_up, Nat.add_sub_assoc hk]

/-- **Pops** restore the registers. -/
theorem popped_eq {m : Machine} (h : f.InMemory m.layout m.mem) (hstage : f.stage ≠ .iret)
    (hswitch : f.stage ≠ .switch) (htop : m.top = f.base.up 22) : m.popped = f.context.regs := by
  funext r
  have hlt := idxOf_pushOrder_lt r
  have hword := h.regs hswitch hstage _ _ (getElem?_pushOrder f.context.regs r)
  rw [Machine.popped, below_eq htop (by omega), ← hword, StackLayout.cell_up]
  congr 1
  omega

/-- The exit of `isr_common` sees where the frame goes back to. -/
theorem savedKernel_eq {m : Machine} (h : f.InMemory m.layout m.mem) (hswitch : f.stage ≠ .switch)
    (htop : m.top = f.base.up 22) : m.savedKernel = (f.context.cs == kernelCode) := by
  have hword := h.iret hswitch 3 f.context.cs rfl
  rw [Machine.savedKernel, below_eq htop (by omega), ← hword]

/-- **`iretq`** restores the rest. -/
theorem iretq_eq {m : Machine} (h : f.InMemory m.layout m.mem) (hswitch : f.stage ≠ .switch)
    (htop : m.top = f.base.up 7) (hregs : m.cpu.regs = f.context.regs) :
    m.iretq.cpu = f.context := by
  have hwords := h.iret hswitch
  have hss := hwords 0 f.context.ss rfl
  have hrsp := hwords 1 f.context.rsp rfl
  have hflags := hwords 2 f.context.rflags rfl
  have hcs := hwords 3 f.context.cs rfl
  have hrip := hwords 4 f.context.rip rfl
  obtain ⟨stage, base, context⟩ := f
  obtain ⟨regs, rip, cs, rflags, rsp, ss⟩ := context
  simp only at hss hrsp hflags hcs hrip hregs htop
  rw [Machine.iretq]
  simp only [below_eq htop (show 2 + 1 ≤ 7 by decide), below_eq htop (show 2 + 2 ≤ 7 by decide),
    below_eq htop (show 2 + 3 ≤ 7 by decide), below_eq htop (show 2 + 4 ≤ 7 by decide),
    below_eq htop (show 2 + 5 ≤ 7 by decide), hregs, ← hss, ← hrsp, ← hflags, ← hcs, ← hrip]

/-- **The pops of `switch_task`** restore the callee-saved registers, and `ret` goes back. -/
theorem switchReturn_eq {m : Machine} (h : f.InMemory m.layout m.mem) (hswitch : f.stage = .switch)
    (htop : m.top = f.base.up 7) :
    (∀ r ∈ calleeSaved, m.switchReturn.cpu.regs r = f.context.regs r) ∧
      m.switchReturn.cpu.rip = f.context.rip ∧ m.switchReturn.cpu.rsp = .place f.base := by
  have hwords := h.switch hswitch
  refine ⟨fun r hr => ?_, ?_, ?_⟩
  · have hlt : calleeSaved.idxOf r < 6 := List.idxOf_lt_length_iff.mpr hr
    show (if r ∈ calleeSaved then m.below (6 - calleeSaved.idxOf r) else m.cpu.regs r) = _
    rw [if_pos hr, below_eq htop (by omega), ← hwords _ _ (getElem?_switchWords f.context hr)]
    congr 1
    omega
  · show m.below 7 = _
    rw [below_eq htop le_rfl, ← hwords 0 _ rfl]
  · show Word.place (m.top.down 7) = _
    rw [htop, Place.down_up f.base le_rfl]
    rfl

/-! ## Invariant -/

/-- The frame is apart from those of the other processes. -/
def System.ApartFrom (g : System) (i : ℕ) (f : SavedFrame) : Prop :=
  ∀ j < g.machine.count, j ≠ i → ∀ f' ∈ g.frames j, Separate f.base f.size f'.base f'.size

/-- The frame is in memory, and within the block of its stack. -/
def System.Holds (g : System) (f : SavedFrame) : Prop :=
  f.InMemory g.machine.layout g.machine.mem ∧ g.machine.layout.Within f.base f.size

structure SystemInv (g : System) : Prop where
  current : g.machine.current < g.machine.count
  layout : g.machine.layout.Apart
  frames : ∀ i < g.machine.count, ∀ f ∈ g.frames i, g.Holds f
  own : Atop g.machine.cpu g.stack
  suspended : ∀ i < g.machine.count, i ≠ g.machine.current → ∃ f fs, g.frames i = f :: fs ∧
    f.stage = .switch ∧ g.machine.rsps i = f.base.up 7 ∧
    ∀ c : Context, c.cs = kernelCode → c.rsp = .place (g.machine.rsps i) → Atop c (g.frames i)
  apart : ∀ i < g.machine.count, ∀ f ∈ g.frames i, g.ApartFrom i f

theorem SystemInv.intact (h : SystemInv g) : g.Intact := by
  intro i hi
  refine ⟨fun f hf => (h.frames i hi f hf).1, fun hne => ?_⟩
  obtain ⟨f, fs, hframes, hstage, hrsp, -⟩ := h.suspended i hi hne
  exact ⟨f, fs, hframes, hstage, hrsp⟩

/-- In ring 0 the stack pointer is a place. -/
theorem SystemInv.rsp_eq (h : SystemInv g) (hcs : g.machine.cpu.cs = kernelCode) :
    g.machine.cpu.rsp = .place g.machine.top := by
  obtain ⟨p, hp⟩ := h.own.place hcs
  rw [Machine.top, hp]

/-- The own frames are below the place where an entry path pushes. -/
theorem SystemInv.below_entry (h : SystemInv g) (pad : ℕ) :
    ∀ f ∈ g.stack, f.base.stack = (g.machine.entry pad).stack ∧
      f.base.depth + f.size ≤ (g.machine.entry pad).depth := by
  intro f hf
  by_cases hcs : g.machine.cpu.cs = kernelCode
  · obtain ⟨hstack, hdepth⟩ := h.own.below (h.rsp_eq hcs) f hf
    rw [Machine.entry, if_pos hcs]
    exact ⟨hstack, hdepth.trans (Nat.le_add_right _ _)⟩
  · rw [h.own.user hcs] at hf
    exact absurd hf List.not_mem_nil

/-- What the suspended processes left lies below their stack pointers. -/
theorem SystemInv.below_rsp (h : SystemInv g) {i : ℕ} (hi : i < g.machine.count)
    (hne : i ≠ g.machine.current) : ∀ f ∈ g.frames i, f.base.stack = (g.machine.rsps i).stack ∧
      f.base.depth + f.size ≤ (g.machine.rsps i).depth := by
  obtain ⟨-, -, -, -, -, hatop⟩ := h.suspended i hi hne
  exact (hatop { g.machine.cpu with cs := kernelCode, rsp := .place (g.machine.rsps i) } rfl
    rfl).below rfl

/-- **Push**: a block beyond the stack pointers of the suspended processes is apart from what
they left. -/
theorem SystemInv.apart_of_clear (h : SystemInv g) (hclear : g.Clear p n) {i : ℕ}
    (hi : i < g.machine.count) (hne : i ≠ g.machine.current) :
    ∀ f ∈ g.frames i, Separate f.base f.size p n := by
  intro f hf hstack
  obtain ⟨hfstack, hdepth⟩ := h.below_rsp hi hne f hf
  exact .inl (hdepth.trans (hclear.others i hi hne (hfstack.symm.trans hstack)))

/-- Memory in which the suspended processes find what they left. -/
def System.OthersKept (g : System) (mem : ℕ → Word) : Prop :=
  ∀ i < g.machine.count, i ≠ g.machine.current → ∀ f ∈ g.frames i, f.InMemory g.machine.layout mem

theorem SystemInv.othersKept (h : SystemInv g) : g.OthersKept g.machine.mem :=
  fun i hi _ f hf => (h.frames i hi f hf).1

theorem SystemInv.othersKept_pushAt (h : SystemInv g) (ws : List Word)
    (hp : g.machine.layout.Within p ws.length)
    (hapart : ∀ i < g.machine.count, i ≠ g.machine.current →
      ∀ f ∈ g.frames i, Separate f.base f.size p ws.length) :
    g.OthersKept (g.machine.layout.pushAt g.machine.mem p ws) := by
  intro i hi hne f hf
  obtain ⟨hmem, hwithin⟩ := h.frames i hi f hf
  exact hmem.pushAt h.layout hwithin hp (hapart i hi hne f hf)

/-- The own frames outlive a push above them. -/
theorem SystemInv.ownKept_pushAt (h : SystemInv g) (ws : List Word)
    (hp : g.machine.layout.Within p ws.length)
    (hbelow : ∀ f ∈ g.stack, f.base.depth + f.size ≤ p.depth) :
    ∀ f ∈ g.stack, f.InMemory g.machine.layout (g.machine.layout.pushAt g.machine.mem p ws) := by
  intro f hf
  obtain ⟨hmem, hwithin⟩ := h.frames _ h.current f hf
  exact hmem.pushAt h.layout hwithin hp fun _ => .inl (hbelow f hf)

/-- A step of the current process keeps the invariant if it keeps what the others left, and puts
its own frames below its stack pointer and apart from that. -/
theorem SystemInv.own_step (h : SystemInv g) {m : Machine} {entered : Bool}
    (hcount : m.count = g.machine.count) (hcurrent : m.current = g.machine.current)
    (hrsps : m.rsps = g.machine.rsps) (hlayout : m.layout = g.machine.layout)
    (hothers : g.OthersKept m.mem)
    (hframes : ∀ f ∈ fs, f.InMemory g.machine.layout m.mem ∧ g.machine.layout.Within f.base f.size)
    (hatop : Atop m.cpu fs) (hapart : ∀ f ∈ fs, g.ApartFrom g.machine.current f) :
    SystemInv ⟨m, Function.update g.frames g.machine.current fs, entered⟩ := by
  refine { current := ?_, layout := ?_, frames := fun i hi => ?_, own := ?_,
           suspended := fun i hi hne => ?_, apart := fun i hi f hf j hj hji => ?_ }
  · show m.current < m.count
    rw [hcount, hcurrent]
    exact h.current
  · show m.layout.Apart
    rw [hlayout]
    exact h.layout
  · show ∀ f ∈ Function.update g.frames g.machine.current fs i,
      f.InMemory m.layout m.mem ∧ m.layout.Within f.base f.size
    rw [hlayout]
    rcases eq_or_ne i g.machine.current with rfl | hne
    · rw [Function.update_self]
      exact hframes
    · rw [Function.update_of_ne hne]
      exact fun f hf => ⟨hothers i (hcount ▸ hi) hne f hf, (h.frames i (hcount ▸ hi) f hf).2⟩
  · show Atop m.cpu (Function.update g.frames g.machine.current fs m.current)
    rw [hcurrent, Function.update_self]
    exact hatop
  · have hne' : i ≠ g.machine.current := hcurrent ▸ hne
    have hsuspended := h.suspended i (hcount ▸ hi) hne'
    show ∃ f fs', Function.update g.frames g.machine.current fs i = f :: fs' ∧ f.stage = .switch ∧
      m.rsps i = f.base.up 7 ∧ ∀ c : Context, c.cs = kernelCode → c.rsp = .place (m.rsps i) →
        Atop c (Function.update g.frames g.machine.current fs i)
    rwa [Function.update_of_ne hne', hrsps]
  · show ∀ f' ∈ Function.update g.frames g.machine.current fs j, _
    replace hf : f ∈ Function.update g.frames g.machine.current fs i := hf
    replace hi : i < g.machine.count := hcount ▸ hi
    replace hj : j < g.machine.count := hcount ▸ hj
    rcases eq_or_ne i g.machine.current with rfl | hic
    · rw [Function.update_self] at hf
      rw [Function.update_of_ne hji]
      exact hapart f hf j hj hji
    · rw [Function.update_of_ne hic] at hf
      rcases eq_or_ne j g.machine.current with rfl | hjc
      · -- the frames of the others are apart from the new ones as these are from them
        rw [Function.update_self]
        exact fun f' hf' => (hapart f' hf' i hi hic f hf).symm
      · rw [Function.update_of_ne hjc]
        exact h.apart i hi f hf j hj hji

/-- The same when the frames stay. -/
theorem SystemInv.code_step (h : SystemInv g) {m : Machine} {entered : Bool}
    (hcount : m.count = g.machine.count) (hcurrent : m.current = g.machine.current)
    (hrsps : m.rsps = g.machine.rsps) (hlayout : m.layout = g.machine.layout)
    (hothers : g.OthersKept m.mem) (hframes : ∀ f ∈ g.stack, f.InMemory g.machine.layout m.mem)
    (hatop : Atop m.cpu g.stack) : SystemInv ⟨m, g.frames, entered⟩ := by
  have hstep : SystemInv ⟨m, Function.update g.frames g.machine.current g.stack, entered⟩ :=
    h.own_step hcount hcurrent hrsps hlayout hothers
      (fun f hf => ⟨hframes f hf, (h.frames _ h.current f hf).2⟩) hatop (h.apart _ h.current)
  rwa [Function.update_eq_self] at hstep

end Cutesugar.Kernel.Irq
