import Mathlib.Data.List.Infix
import Mathlib.Data.Int.Notation
import Mathlib.Data.Nat.Find

/-!
# The keyboard controller (`kernel/arch/ps2.c`)

`HalInitializePs2` empties the output buffer of the controller in a loop of 1024 polls. What the loop came to
is taken from its counter afterwards: the counter of the last poll is 1023, and that of a loop in which no
poll saw the buffer empty is 1024.

- `halInitializePs2`: the function, over the bytes that the ports give.
- `FlushDecides`: it fails exactly if no poll saw the buffer empty.
- `flush_decides_iff`: for which bytes that is so.
-/

namespace Cutesugar.Kernel

/-! ## Ports -/

/-- What the ports give from the call of the function on: the bytes of `PS2_COMMAND`, which are those of the
status register, and of `PS2_DATA`, each in the order of its reads. -/
structure Ps2Ports where
  command : ℕ → UInt8
  data : ℕ → UInt8

/-- What the function does outside of its own variables. -/
inductive Ps2Event where
  | inb (port value : UInt8)
  | outb (port value : UInt8)
  | ramfsCreateFile (directory name : String) (size : ℕ)
  | halSetIrqEntry (irq : ℕ)
  | halMapInterrupt (irq vector : ℕ)
  | halUnmaskInterrupt (irq : ℕ)
  | sti
  deriving DecidableEq

/-- The reads made of either port, and everything done so far. -/
structure Ps2State where
  commands : ℕ
  datas : ℕ
  trace : List Ps2Event

/-- `inb(PS2_COMMAND)`. -/
def inbCommand (P : Ps2Ports) (s : Ps2State) : UInt8 × Ps2State :=
  (P.command s.commands,
    { s with commands := s.commands + 1, trace := s.trace ++ [.inb 0x64 (P.command s.commands)] })

/-- `inb(PS2_DATA)`. -/
def inbData (P : Ps2Ports) (s : Ps2State) : UInt8 × Ps2State :=
  (P.data s.datas, { s with datas := s.datas + 1, trace := s.trace ++ [.inb 0x60 (P.data s.datas)] })

/-- Something that is not a read. -/
def Ps2State.emit (s : Ps2State) (e : Ps2Event) : Ps2State := { s with trace := s.trace ++ [e] }

/-! ## `HalInitializePs2` -/

/-- The loop of `wait_ps2`. -/
def waitLoop (P : Ps2Ports) : ℕ → Ps2State → Ps2State
  | 0, s => s
  | rounds + 1, s => waitLoop P rounds (inbCommand P s).2

/-- `wait_ps2`. -/
def waitPs2 (P : Ps2Ports) (s : Ps2State) : Ps2State := waitLoop P 1000 s

/-- The loop that empties the output buffer, with the polls that are left and `timeout`. -/
def flushLoop (P : Ps2Ports) : ℕ → ℕ → Ps2State → ℕ × Ps2State
  | 0, timeout, s => (timeout, s)
  | polls + 1, timeout, s =>
    let (_, s) := inbData P s
    let (status, s) := inbCommand P s
    if status &&& 1 = 0 then (timeout, s) else flushLoop P polls (timeout + 1) s

/-- Both ports of the controller are turned off. -/
def disablePs2 (P : Ps2Ports) (s : Ps2State) : Ps2State :=
  let s := s.emit (.outb 0x64 0xAD)
  let s := waitPs2 P s
  let s := s.emit (.outb 0x64 0xA7)
  waitPs2 P s

/-- The keyboard's file and its interrupt. -/
def registerKeyboard (s : Ps2State) : Ps2State :=
  let s := s.emit (.ramfsCreateFile "./Devices" "Ps2Keyboard" 64)
  let s := s.emit (.halSetIrqEntry 1)
  let s := s.emit (.halMapInterrupt 1 33)
  let s := s.emit (.halUnmaskInterrupt 1)
  s.emit .sti

/-- The configuration byte of the controller is read and written back, and the keyboard turned on. -/
def enablePs2 (P : Ps2Ports) (s : Ps2State) : Ps2State :=
  let s := s.emit (.outb 0x64 0x20)
  let s := waitPs2 P s
  let (status, s) := inbData P s
  let s := waitPs2 P s
  let s := s.emit (.outb 0x64 0x60)
  let s := waitPs2 P s
  let s := s.emit (.outb 0x60 (status ||| 0b0101001))
  let s := waitPs2 P s
  s.emit (.outb 0x64 0xAE)

/-- `HalInitializePs2`, with `HalDoesSupportPs2`. -/
def halInitializePs2 (supports : Bool) (P : Ps2Ports) (s : Ps2State) : ℤ × Ps2State :=
  if supports then
    let s := disablePs2 P s
    let (timeout, s) := flushLoop P 1024 0 s
    if timeout = 1023 then (-1, s) else (0, registerKeyboard (enablePs2 P s))
  else (-1, s)

/-! ## The verdict -/

/-- Nothing has been read yet. -/
def Ps2State.start : Ps2State := { commands := 0, datas := 0, trace := [] }

/-- The file or the interrupt handler of the keyboard is registered. -/
def Ps2Event.Registers : Ps2Event → Prop
  | .ramfsCreateFile .. | .halSetIrqEntry _ => True
  | _ => False

/-- A poll of the loop would see the output buffer full. The two waits before it make 2000 reads. -/
def Ps2Ports.Full (P : Ps2Ports) (poll : ℕ) : Prop := P.command (2000 + poll) &&& 1 ≠ 0

/-- The function returns -1 and has registered nothing. -/
def GivesUp (r : ℤ × Ps2State) : Prop := r.1 = -1 ∧ ∀ e ∈ r.2.trace, ¬ e.Registers

/-- The function returns 0, and has registered the keyboard at last. -/
def Initialises (r : ℤ × Ps2State) : Prop :=
  r.1 = 0 ∧ [.ramfsCreateFile "./Devices" "Ps2Keyboard" 64, .halSetIrqEntry 1, .halMapInterrupt 1 33,
    .halUnmaskInterrupt 1, .sti] <:+ r.2.trace

/-- **The flush decides**: the function gives up exactly if none of the 1024 polls sees the output buffer
empty, and initialises the keyboard otherwise. -/
structure FlushDecides (P : Ps2Ports) : Prop where
  givesUp : GivesUp (halInitializePs2 true P .start) ↔ ∀ poll < 1024, P.Full poll
  initialises : ¬ (∀ poll < 1024, P.Full poll) → Initialises (halInitializePs2 true P .start)

variable {P : Ps2Ports} {s s' : Ps2State} {poll polls timeout rounds : ℕ}

/-! ## Reads -/

/-- Only ports are used on the way from one state to another, and the status register is read a number of
times. -/
structure Talks (s s' : Ps2State) (reads : ℕ) : Prop where
  commands : s'.commands = s.commands + reads
  quiet : (∀ e ∈ s.trace, ¬ e.Registers) → ∀ e ∈ s'.trace, ¬ e.Registers

theorem Talks.trans {s'' : Ps2State} {m n : ℕ} (h : Talks s s' m) (h' : Talks s' s'' n) :
    Talks s s'' (m + n) where
  commands := by rw [h'.commands, h.commands, Nat.add_assoc]
  quiet hquiet := h'.quiet (h.quiet hquiet)

theorem quiet_append {trace : List Ps2Event} {e : Ps2Event} (h : ∀ e ∈ trace, ¬ e.Registers)
    (he : ¬ e.Registers) : ∀ e' ∈ trace ++ [e], ¬ e'.Registers := by
  intro e' hmem
  rcases List.mem_append.mp hmem with hold | hnew
  · exact h e' hold
  · rw [List.mem_singleton.mp hnew]
    exact he

theorem talks_inbCommand (P : Ps2Ports) (s : Ps2State) : Talks s (inbCommand P s).2 1 where
  commands := rfl
  quiet h := quiet_append h id

theorem talks_inbData (P : Ps2Ports) (s : Ps2State) : Talks s (inbData P s).2 0 where
  commands := rfl
  quiet h := quiet_append h id

theorem talks_outb (s : Ps2State) (port value : UInt8) : Talks s (s.emit (.outb port value)) 0 where
  commands := rfl
  quiet h := quiet_append h id

theorem talks_waitLoop (P : Ps2Ports) (rounds : ℕ) (s : Ps2State) : Talks s (waitLoop P rounds s) rounds := by
  induction rounds generalizing s with
  | zero => exact { commands := rfl, quiet := id }
  | succ rounds ih =>
    have h := (talks_inbCommand P s).trans (ih (inbCommand P s).2)
    rw [Nat.add_comm] at h
    exact h

theorem talks_disablePs2 (P : Ps2Ports) (s : Ps2State) : Talks s (disablePs2 P s) 2000 :=
  ((talks_outb s 0x64 0xAD).trans (talks_waitLoop P 1000 _)).trans
    ((talks_outb _ 0x64 0xA7).trans (talks_waitLoop P 1000 _))

/-! ## The polls -/

/-- A poll reads both ports. -/
def afterPoll (P : Ps2Ports) (s : Ps2State) : Ps2State := (inbCommand P (inbData P s).2).2

theorem talks_afterPoll (P : Ps2Ports) (s : Ps2State) : Talks s (afterPoll P s) 1 :=
  (talks_inbData P s).trans (talks_inbCommand P _)

theorem flushLoop_empty (h : P.command s.commands &&& 1 = 0) :
    flushLoop P (polls + 1) timeout s = (timeout, afterPoll P s) := if_pos h

theorem flushLoop_full (h : P.command s.commands &&& 1 ≠ 0) :
    flushLoop P (polls + 1) timeout s = flushLoop P polls (timeout + 1) (afterPoll P s) := if_neg h

/-- The loop stops at the first poll that sees the buffer empty. -/
theorem flushLoop_first (hpoll : poll < polls) (hempty : P.command (s.commands + poll) &&& 1 = 0)
    (hfull : ∀ k < poll, P.command (s.commands + k) &&& 1 ≠ 0) :
    (flushLoop P polls timeout s).1 = timeout + poll := by
  induction poll generalizing polls timeout s with
  | zero =>
    obtain ⟨polls, rfl⟩ := Nat.exists_eq_add_of_lt hpoll
    rw [Nat.zero_add, flushLoop_empty hempty]
    rfl
  | succ poll ih =>
    obtain ⟨polls, rfl⟩ := Nat.exists_eq_add_of_lt hpoll
    rw [flushLoop_full (hfull 0 (Nat.succ_pos poll))]
    have hread := (talks_afterPoll P s).commands
    rw [ih (by omega), Nat.add_assoc, Nat.add_comm 1]
    · rw [hread, Nat.add_assoc, Nat.add_comm 1]
      exact hempty
    · intro k hk
      rw [hread, Nat.add_assoc, Nat.add_comm 1]
      exact hfull (k + 1) (Nat.succ_lt_succ hk)

/-- If no poll sees the buffer empty, the counter is the number of polls. -/
theorem flushLoop_all (hfull : ∀ k < polls, P.command (s.commands + k) &&& 1 ≠ 0) :
    (flushLoop P polls timeout s).1 = timeout + polls := by
  induction polls generalizing timeout s with
  | zero => rfl
  | succ polls ih =>
    rw [flushLoop_full (hfull 0 (Nat.succ_pos polls))]
    have hread := (talks_afterPoll P s).commands
    rw [ih, Nat.add_assoc, Nat.add_comm 1]
    intro k hk
    rw [hread, Nat.add_assoc, Nat.add_comm 1]
    exact hfull (k + 1) (Nat.succ_lt_succ hk)

/-- The loop only uses the ports. -/
theorem quiet_flushLoop (h : ∀ e ∈ s.trace, ¬ e.Registers) :
    ∀ e ∈ (flushLoop P polls timeout s).2.trace, ¬ e.Registers := by
  induction polls generalizing timeout s with
  | zero => exact h
  | succ polls ih =>
    have hpoll := (talks_afterPoll P s).quiet h
    by_cases hempty : P.command s.commands &&& 1 = 0
    · rw [flushLoop_empty hempty]
      exact hpoll
    · rw [flushLoop_full hempty]
      exact ih hpoll

/-! ## The function -/

/-- The counter behind the loop. -/
def timeoutOf (P : Ps2Ports) : ℕ := (flushLoop P 1024 0 (disablePs2 P .start)).1

theorem commands_disablePs2 (P : Ps2Ports) : (disablePs2 P .start).commands = 2000 :=
  (talks_disablePs2 P .start).commands

theorem timeoutOf_first (hpoll : poll < 1024) (hempty : ¬ P.Full poll) (hfull : ∀ k < poll, P.Full k) :
    timeoutOf P = poll := by
  have hread := commands_disablePs2 P
  rw [timeoutOf, flushLoop_first hpoll, Nat.zero_add]
  · rw [hread]
    exact not_not.mp hempty
  · intro k hk
    rw [hread]
    exact hfull k hk

theorem timeoutOf_all (hfull : ∀ k < 1024, P.Full k) : timeoutOf P = 1024 := by
  rw [timeoutOf, flushLoop_all]
  intro k hk
  rw [commands_disablePs2 P]
  exact hfull k hk

/-- The function with support for the controller. -/
theorem halInitializePs2_true (P : Ps2Ports) :
    halInitializePs2 true P .start =
      if timeoutOf P = 1023 then (-1, (flushLoop P 1024 0 (disablePs2 P .start)).2)
      else (0, registerKeyboard (enablePs2 P (flushLoop P 1024 0 (disablePs2 P .start)).2)) := by
  unfold timeoutOf
  rcases hflush : flushLoop P 1024 0 (disablePs2 P .start) with ⟨timeout, s⟩
  simp only [halInitializePs2, if_true, hflush]

/-- A counter of 1023 makes the function give up. -/
theorem givesUp_of_timeout (h : timeoutOf P = 1023) : GivesUp (halInitializePs2 true P .start) := by
  rw [halInitializePs2_true, if_pos h]
  refine ⟨rfl, quiet_flushLoop ?_⟩
  exact (talks_disablePs2 P .start).quiet fun e he => nomatch he

theorem initialises_registerKeyboard (s : Ps2State) : Initialises (0, registerKeyboard s) := by
  refine ⟨rfl, s.trace, ?_⟩
  simp [registerKeyboard, Ps2State.emit]

/-- Each other counter makes it go on. -/
theorem initialises_of_timeout (h : timeoutOf P ≠ 1023) : Initialises (halInitializePs2 true P .start) := by
  rw [halInitializePs2_true, if_neg h]
  exact initialises_registerKeyboard _

theorem Initialises.not_givesUp {r : ℤ × Ps2State} (h : Initialises r) : ¬ GivesUp r := by
  intro hup
  have hreturn := hup.1
  rw [h.1] at hreturn
  exact absurd hreturn (by decide)

/-- Some poll before the last one sees the buffer empty. -/
theorem flushDecides_of_empty (h : ∃ poll < 1023, ¬ P.Full poll) : FlushDecides P := by
  classical
  obtain ⟨hpoll, hempty⟩ := Nat.find_spec h
  have hfull : ∀ k < Nat.find h, P.Full k := by
    intro k hk
    by_contra hk'
    exact Nat.find_min h hk ⟨hk.trans hpoll, hk'⟩
  have htimeout := timeoutOf_first (hpoll.trans (by decide)) hempty hfull
  have hinit := initialises_of_timeout (P := P) (by omega)
  refine { givesUp := ?_, initialises := fun _ => hinit }
  apply iff_of_false hinit.not_givesUp
  exact fun hall => hempty (hall _ (hpoll.trans (by decide)))

/-- If only the last poll could see the buffer empty, the verdict is the wrong one either way. -/
theorem not_flushDecides_of_full (h : ∀ poll < 1023, P.Full poll) : ¬ FlushDecides P := by
  intro hdecides
  by_cases hlast : P.Full 1023
  · -- all polls fail, and the counter is 1024
    have hall : ∀ poll < 1024, P.Full poll := by
      intro poll hpoll
      rcases Nat.lt_or_ge poll 1023 with hlt | hge
      · exact h poll hlt
      · obtain rfl : poll = 1023 := by omega
        exact hlast
    have hup := hdecides.givesUp.mpr hall
    have hinit := initialises_of_timeout (P := P) (by rw [timeoutOf_all hall]; decide)
    exact hinit.not_givesUp hup
  · -- the last poll sees the buffer empty, and the counter is 1023
    have hinit := hdecides.initialises fun hall => hlast (hall 1023 (by decide))
    have hup := givesUp_of_timeout (timeoutOf_first (by decide) hlast h)
    exact hinit.not_givesUp hup

/-- **The verdict of the flush loop** is right exactly if a poll before the last one sees the output buffer
empty. -/
theorem flush_decides_iff (P : Ps2Ports) : FlushDecides P ↔ ∃ poll < 1023, ¬ P.Full poll := by
  constructor
  · intro h
    by_contra hfull
    push Not at hfull
    exact not_flushDecides_of_full hfull h
  · exact flushDecides_of_empty

/-- A controller whose output buffer never empties. -/
def stuckController : Ps2Ports where
  command _ := 1
  data _ := 0

/-- Its keyboard is initialised. -/
theorem stuck_controller_initialised : ¬ FlushDecides stuckController :=
  not_flushDecides_of_full fun _ _ => (by decide : (1 : UInt8) &&& 1 ≠ 0)

end Cutesugar.Kernel
