import Cutesugar.Kernel.Arch.ProcessLookup
import Cutesugar.Lib.SpinLock
import Mathlib.Dynamics.PeriodicPts.Defs

/-!
# Switching under the lock (`kernel/misc/spinlock.c`, `KernelSwitchProcess`)

`KernelSwitchProcess` runs in the handler of the timer, on any number of processors. It looks at `current_task`
twice before it asks for `spinlock`; `lock` disables interrupts first, and `unlock`, which `switch_task` calls
after it has changed stacks, enables them last. The lock and its waiting loop are those of the library; here are
the accesses that `KernelSwitchProcess` and `switch_task` make before and under it.

- `perform_switchSection`: the accesses one after the other are `kernelSwitchProcess`.
- `switch_exclusive`: one processor switches at a time, no interrupt comes in between, and none waits for ever.
- `switches_in_turn`: the processes are switched to in the order of the ring, whatever the interleaving.
- `saves_own_iff`: the stack pointers are saved for the right processes exactly if one processor switches.
-/

namespace Cutesugar.Kernel

open Lib Lib.SpinLock

/-! ## The section -/

/-- What a processor has to itself: the stack pointer, `cr3`, and the arguments of `switch_task`. -/
structure SwitchRegs where
  rsp : ℕ
  cr3 : ℕ
  next : ℕ
  previous : ℕ

/-- `KernelSwitchProcess` and `switch_task`. -/
def switchSection : Section State SwitchRegs where
  checks :=
    [fun s _ => s.currentTask != 0,
      fun s _ => (s.nodes s.currentTask).next != 0]
  ops :=
    [fun (s, r) => ({ s with prevTask := s.currentTask }, r),
      fun (s, r) => ({ s with currentTask := (s.nodes s.currentTask).next }, r),
      fun (s, r) => (s, { r with cr3 := (s.tasks (s.nodes s.currentTask).task).cr3 }),
      -- the two arguments
      fun (s, r) => (s, { r with next := (s.nodes s.currentTask).task }),
      fun (s, r) => (s, { r with previous := (s.nodes s.prevTask).task }),
      -- `mov %rsp, 8(%rsi)` and `mov 8(%rdi), %rsp`
      fun (s, r) => (s.setTask r.previous { s.tasks r.previous with rsp := r.rsp }, r),
      fun (s, r) => (s, { r with rsp := (s.tasks r.next).rsp })]

variable {κ : Type*} {s : State} {r : SwitchRegs} {ps : List ℕ} {i k : ℕ} {own : SwitchRegs}

/-- **The accesses together** are `kernelSwitchProcess`, but for `cr3`, which is the processor's own. -/
theorem perform_switchSection (hcurrent : s.currentTask ≠ 0) (hnext : (s.nodes s.currentTask).next ≠ 0) :
    perform switchSection.ops (s, r) =
      ({ kernelSwitchProcess s r.rsp with cr3 := s.cr3 },
        { rsp := ((kernelSwitchProcess s r.rsp).tasks
            (s.nodes (kernelSwitchProcess s r.rsp).currentTask).task).rsp
          cr3 := (kernelSwitchProcess s r.rsp).cr3
          next := (s.nodes (kernelSwitchProcess s r.rsp).currentTask).task
          previous := (s.nodes s.currentTask).task }) := by
  have hcr3 : ∀ t u : ℕ, (Function.update s.tasks t { s.tasks t with rsp := r.rsp } u).cr3 = (s.tasks u).cr3 := by
    intro t u
    rcases eq_or_ne u t with rfl | hne
    · rw [Function.update_self]
    · rw [Function.update_of_ne hne]
  simp only [perform, switchSection, List.foldl_cons, List.foldl_nil, kernelSwitchProcess, if_neg hcurrent,
    if_neg hnext, hcr3]

/-! ## One at a time -/

/-- **Exclusion** in a state of a run: one processor is between `lock` and `unlock`, no interrupt begins another
switch from the checks on until `unlock` is done, and a processor that waits can get in. -/
structure SwitchExclusive [DecidableEq κ] (g : System κ State SwitchRegs) : Prop where
  unique : ∀ p q, (g.phase p).Inside → (g.phase q).Inside → p = q
  lock : g.lock = true ↔ ∃ p, (g.phase p).Inside
  unbroken : ∀ p own, g.phase p ≠ .outside → g.step switchSection (.interrupt p own) = g
  progress : ∀ p own, g.phase p = .waiting own ∨ g.phase p = .seenFree own →
    ∃ qs : List κ, (run (System.step switchSection) g (qs.map .step)).phase p = .inside switchSection.ops own

/-- **Switches exclude each other** in every state of every run, on any number of processors. -/
theorem switch_exclusive [DecidableEq κ] (s : State) (enabled : κ → Bool) (es : List (Event κ SwitchRegs)) :
    Everywhere (System.step switchSection) SwitchExclusive (System.start s enabled) es := by
  refine everywhere_iff_prefix.mpr fun pre _ => ?_
  have hstart : LockInv switchSection s (System.start s enabled) := LockInv.start enabled
  have hinv := hstart.run pre
  refine { unique := fun _ _ => hinv.unique, lock := hinv.lock_iff, unbroken := ?_, progress := ?_ }
  · intro p own hp
    have hmasked : ¬ (run (System.step switchSection) (System.start s enabled) pre).enabled p = true := by
      rw [hinv.masked p hp]
      exact Bool.false_ne_true
    rw [System.step, if_neg hmasked]
  · exact fun _ _ => hinv.exists_inside

/-! ## In turn -/

theorem getElem?_succ_of_chain {next : ℕ → ℕ} {a b c j : ℕ} {xs : List ℕ} (h : Chain next a xs b)
    (hc : xs[j]? = some c) : (xs ++ [b])[j + 1]? = some (next c) := by
  induction xs generalizing a j with
  | nil => exact nomatch hc
  | cons x xs ih =>
    obtain ⟨rfl, hrest⟩ := h
    cases j with
    | succ j => exact ih hrest hc
    | zero =>
      obtain rfl := Option.some.inj hc
      cases xs with
      | nil => exact congrArg some hrest.symm
      | cons y ys => exact congrArg some hrest.1.symm

/-- The next node of the ring. -/
theorem RingInv.getElem?_succNode (h : RingInv s ps) {c : ℕ} (hc : ps[i]? = some c) :
    ps[(i + 1) % ps.length]? = some (succNode s c) := by
  obtain ⟨hi, -⟩ := List.getElem?_eq_some_iff.mp hc
  have hne : ps ≠ [] := List.ne_nil_of_length_pos (Nat.zero_lt_of_lt hi)
  have hnext := getElem?_succ_of_chain (h.cycle hne) hc
  rcases Nat.lt_or_ge (i + 1) ps.length with hlt | hge
  · rwa [Nat.mod_eq_of_lt hlt, ← List.getElem?_append_left hlt]
  · -- behind the last node comes the first
    have hlast : i + 1 = ps.length := by omega
    rw [hlast, List.getElem?_concat_length] at hnext
    obtain ⟨p, qs, rfl⟩ := List.exists_cons_of_ne_nil hne
    rw [hlast, Nat.mod_self, ← hnext, h.first_eq]
    rfl

/-- A switch of the ring, whoever's `cr3` it sets. -/
theorem RingInv.withCr3 (h : RingInv s ps) (cr3 : ℕ) : RingInv { s with cr3 := cr3 } ps where
  nodup := h.nodup
  chain := h.chain
  current := h.current
  ids := h.ids
  blocks := ⟨h.blocks.nonnull, h.blocks.injective⟩
  pid := h.pid
  empty := h.empty
  node := h.node
  task := h.task
  zero := h.zero

/-- The `k`-th switch from the process at position `i` of the ring: its record is handed over as the previous
one, that of the process behind it as the next one, and `cr3` is the one of the latter. -/
structure InTurn (s : State) (ps : List ℕ) (i k : ℕ) (r : SwitchRegs) : Prop where
  previous : ∃ a, ps[(i + k) % ps.length]? = some a ∧ r.previous = (s.nodes a).task
  next : ∃ b, ps[(i + k + 1) % ps.length]? = some b ∧ r.next = (s.nodes b).task
  cr3 : r.cr3 = (s.tasks r.next).cr3

/-- What a number of switches leave of the ring. -/
structure Turned (s : State) (ps : List ℕ) (i : ℕ) (x : State × List (κ × SwitchRegs)) : Prop where
  ring : RingInv x.1 ps
  nodes : x.1.nodes = s.nodes
  cr3 : ∀ t, (x.1.tasks t).cr3 = (s.tasks t).cr3
  current : ps[(i + x.2.length) % ps.length]? = some x.1.currentTask
  ended : ∀ (k : ℕ) c, x.2[k]? = some c → InTurn s ps i k c.2

variable {x : State × List (κ × SwitchRegs)} {c : κ × SwitchRegs}

theorem Turned.start (h : RingInv s ps) (hi : ps[i]? = some s.currentTask) :
    Turned (κ := κ) s ps i (s, []) where
  ring := h
  nodes := rfl
  cr3 _ := rfl
  current := by
    obtain ⟨hlt, -⟩ := List.getElem?_eq_some_iff.mp hi
    rw [List.length_nil, Nat.add_zero, Nat.mod_eq_of_lt hlt]
    exact hi
  ended _ _ h := nomatch h

/-- **One more switch.** -/
theorem Turned.call (h : Turned s ps i x) (hlen : 2 ≤ ps.length) (c : κ × SwitchRegs) :
    Turned s ps i (switchSection.call x c) := by
  have hne : ps ≠ [] := List.ne_nil_of_length_pos (by omega)
  have hmem := h.ring.current hne
  have hcurrent := h.ring.nonnull hmem
  obtain ⟨hswitch, hnodes, hsucc⟩ := h.ring.switch c.2.rsp
  have hsucc := hsucc hne
  -- one turn of the ring
  have hturn : ps[(i + x.2.length + 1) % ps.length]? =
      some (kernelSwitchProcess x.1 c.2.rsp).currentTask := by
    rw [hsucc, ← Nat.mod_add_mod]
    exact h.ring.getElem?_succNode h.current
  -- the switch stores in a task the root that the processor has, which is that of this task
  have hcr3 (t : ℕ) : ((kernelSwitchProcess x.1 c.2.rsp).tasks t).cr3 = (s.tasks t).cr3 := by
    rw [← h.cr3, kernelSwitchProcess, if_neg hcurrent, if_neg (h.ring.next_ne hlen hmem)]
    rcases eq_or_ne t (x.1.nodes x.1.currentTask).task with rfl | hne
    · simp only [Function.update_self]
    · simp only [Function.update_of_ne hne]
  have hset : (kernelSwitchProcess x.1 c.2.rsp).cr3 =
      (s.tasks (x.1.nodes (kernelSwitchProcess x.1 c.2.rsp).currentTask).task).cr3 := by
    rw [← h.cr3, kernelSwitchProcess, if_neg hcurrent, if_neg (h.ring.next_ne hlen hmem)]
    simp only [Function.update_apply]
    split_ifs with heq
    · rw [heq]
    · rfl
  rw [Section.call, perform_switchSection hcurrent (h.ring.next_ne hlen hmem)]
  refine
    { ring := hswitch.withCr3 _
      nodes := hnodes.trans h.nodes
      cr3 := hcr3
      current := ?_
      ended := ?_ }
  · rw [List.length_append, List.length_singleton, ← Nat.add_assoc]
    exact hturn
  · intro k c' hc'
    -- the calls before this one have ended as they did, and this one ends now
    rcases Nat.lt_trichotomy k x.2.length with hlt | rfl | hgt
    · rw [List.getElem?_append_left hlt] at hc'
      exact h.ended k c' hc'
    · rw [List.getElem?_concat_length] at hc'
      obtain rfl := Option.some.inj hc'
      refine { previous := ⟨_, h.current, ?_⟩, next := ⟨_, hturn, ?_⟩, cr3 := hset }
      · rw [h.nodes]
      · rw [h.nodes]
    · rw [List.getElem?_eq_none (by rw [List.length_append, List.length_singleton]; omega)] at hc'
      cases hc'

theorem Turned.serial (h : RingInv s ps) (hlen : 2 ≤ ps.length) (hi : ps[i]? = some s.currentTask)
    (calls : List (κ × SwitchRegs)) : Turned s ps i (switchSection.serial s calls) := by
  induction calls using List.reverseRecOn with
  | nil => exact .start h hi
  | append_singleton calls c ih =>
    rw [Section.serial_append]
    exact ih.call hlen c

/-- The switches that are done are done in turn. -/
theorem inTurn_of_ended [DecidableEq κ] (h : RingInv s ps) (hlen : 2 ≤ ps.length)
    (hi : ps[i]? = some s.currentTask) (enabled : κ → Bool) (es : List (Event κ SwitchRegs))
    {c : κ × SwitchRegs}
    (hc : (run (System.step switchSection) (System.start s enabled) es).ended[k]? = some c) :
    InTurn s ps i k c.2 := by
  have hstart : LockInv switchSection s (System.start s enabled) := LockInv.start enabled
  obtain ⟨rest, hrest⟩ := (hstart.run es).ended_initial
  obtain ⟨hlt, -⟩ := List.getElem?_eq_some_iff.mp hc
  apply (Turned.serial h hlen hi (run (System.step switchSection) (System.start s enabled) es).taken).ended
  rw [← hrest, List.getElem?_append_left hlt]
  exact hc

/-- **The processes are switched to in turn**: however the processors interleave, the switches that are done are,
in the order in which the lock was given back, those round the ring from the current process on; and while nobody
has the lock, the current process is the one that the last of them switched to. -/
theorem switches_in_turn [DecidableEq κ] (h : RingInv s ps) (hlen : 2 ≤ ps.length)
    (hi : ps[i]? = some s.currentTask) (enabled : κ → Bool) (es : List (Event κ SwitchRegs)) :
    Everywhere (System.step switchSection)
      (fun g => (∀ (k : ℕ) c, g.ended[k]? = some c → InTurn s ps i k c.2) ∧
        (g.lock = false → ps[(i + g.ended.length) % ps.length]? = some g.data.currentTask))
      (System.start s enabled) es := by
  refine everywhere_iff_prefix.mpr fun pre _ => ?_
  have hstart : LockInv switchSection s (System.start s enabled) := LockInv.start enabled
  refine ⟨fun k c hc => inTurn_of_ended h hlen hi enabled pre hc, fun hlock => ?_⟩
  -- nobody is in a section, so the data are those of the sections that are done
  have hcurrent :=
    (Turned.serial h hlen hi (run (System.step switchSection) (System.start s enabled) pre).taken).current
  rw [(hstart.run pre).of_free hlock] at hcurrent
  exact hcurrent

/-! ## Two processes -/

/-- The boot kernel with two processes. -/
theorem exists_two_processes :
    ∃ (ps : List ℕ) (i : ℕ), ps.length = 2 ∧
      RingInv (run (TaskCall.step Mmu.bootPlatform 8 0) bootKernel
        [.initializeProcess 0x1000 1, .initializeProcess 0x2000 0]) ps ∧
      ps[i]? = some (run (TaskCall.step Mmu.bootPlatform 8 0) bootKernel
        [.initializeProcess 0x1000 1, .initializeProcess 0x2000 0]).currentTask := by
  have hret : Along (TaskCall.step Mmu.bootPlatform 8 0)
      (fun s c => c.Returns Mmu.bootPlatform 8 0 s) bootKernel
      [.initializeProcess 0x1000 1, .initializeProcess 0x2000 0] := by decide
  obtain ⟨qs, hring, hlength⟩ := (RingInv.start bootKernel_start).run hret
  have hne : [] ++ qs ≠ [] := List.ne_nil_of_length_pos (by
    rw [List.nil_append, hlength]
    decide)
  obtain ⟨i, hi⟩ := List.getElem?_of_mem (hring.current hne)
  exact ⟨[] ++ qs, i, hlength, hring, hi⟩

/-- Two processors that ask for the lock at the same time. -/
theorem two_processors_in_turn :
    ∃ (s : State) (ps : List ℕ) (i : ℕ), ps.length = 2 ∧
      Everywhere (System.step switchSection)
        (fun g => (∀ (k : ℕ) c, g.ended[k]? = some c → InTurn s ps i k c.2) ∧
          (g.lock = false → ps[(i + g.ended.length) % ps.length]? = some g.data.currentTask))
        (System.start s fun _ => true)
        ([.interrupt false ⟨1, 0, 0, 0⟩, .interrupt true ⟨2, 0, 0, 0⟩] ++
          (List.replicate 20 [.step false, .step true]).flatten : List (Event Bool SwitchRegs)) := by
  obtain ⟨ps, i, hlength, hring, hi⟩ := exists_two_processes
  exact ⟨_, ps, i, hlength, switches_in_turn hring hlength.ge hi _ _⟩

/-! ## Whose stack pointer is saved -/

/-- The record of the process that each processor runs, after some switches. -/
def runningOn [DecidableEq κ] (first : κ → ℕ) (done : List (κ × SwitchRegs)) : κ → ℕ :=
  done.foldl (fun on c => Function.update on c.1 c.2.next) first

/-- Each switch has saved the stack pointer of its processor in the record of the process that ran there. -/
def SavesOwn [DecidableEq κ] (first : κ → ℕ) (done : List (κ × SwitchRegs)) : Prop :=
  ∀ pre c post, done = pre ++ c :: post → c.2.previous = runningOn first pre c.1

/-- A processor that has not switched yet runs what it ran. -/
theorem runningOn_of_not_mem [DecidableEq κ] {first : κ → ℕ} {done : List (κ × SwitchRegs)} {p : κ}
    (h : ∀ c ∈ done, c.1 ≠ p) : runningOn first done p = first p := by
  induction done using List.reverseRecOn with
  | nil => rfl
  | append_singleton done c ih =>
    have hlast := h c (List.mem_append_right _ (List.mem_singleton_self c))
    rw [runningOn, List.foldl_append, List.foldl_cons, List.foldl_nil, Function.update_of_ne hlast.symm]
    exact ih fun c hc => h c (List.mem_append_left _ hc)

/-- The last switch says what its processor runs. -/
theorem runningOn_concat [DecidableEq κ] (first : κ → ℕ) (done : List (κ × SwitchRegs)) (c : κ × SwitchRegs) :
    runningOn first (done ++ [c]) c.1 = c.2.next := by
  rw [runningOn, List.foldl_append]
  exact Function.update_self ..

/-- **The stack pointers are the right ones** exactly if no other processor than the one that runs the current
process switches. Another one would save its own in the record of a process that it does not run. -/
theorem saves_own_iff [DecidableEq κ] (h : RingInv s ps) (hlen : 2 ≤ ps.length) (first : κ → ℕ) (boot : κ)
    (hboot : first boot = (s.nodes s.currentTask).task)
    (hothers : ∀ p, p ≠ boot → ∀ a ∈ ps, first p ≠ (s.nodes a).task)
    (enabled : κ → Bool) (es : List (Event κ SwitchRegs)) :
    SavesOwn first (run (System.step switchSection) (System.start s enabled) es).ended ↔
      ∀ c ∈ (run (System.step switchSection) (System.start s enabled) es).ended, c.1 = boot := by
  have hne : ps ≠ [] := List.ne_nil_of_length_pos (by omega)
  obtain ⟨i, hi⟩ := List.getElem?_of_mem (h.current hne)
  have hturn : ∀ (k : ℕ) c, (run (System.step switchSection) (System.start s enabled) es).ended[k]? = some c →
      InTurn s ps i k c.2 := fun _ _ hc => inTurn_of_ended h hlen hi enabled es hc
  generalize (run (System.step switchSection) (System.start s enabled) es).ended = done at hturn
  have hat {pre post : List (κ × SwitchRegs)} {c : κ × SwitchRegs} (heq : done = pre ++ c :: post) :
      InTurn s ps i pre.length c.2 := by
    apply hturn
    rw [heq, List.getElem?_append_right le_rfl, Nat.sub_self]
    rfl
  constructor
  · intro hsaves
    -- no processor but that one has switched in any beginning of the list
    have hpre : ∀ pre, pre <+: done → ∀ c ∈ pre, c.1 = boot := by
      intro pre
      induction pre using List.reverseRecOn with
      | nil => exact fun _ c hc => nomatch hc
      | append_singleton pre d ih =>
        rintro ⟨post, heq⟩
        have hold := ih ⟨d :: post, by rw [← heq, List.append_assoc]; rfl⟩
        have heq' : done = pre ++ d :: post := by rw [← heq, List.append_assoc]; rfl
        intro c hc
        rcases List.mem_append.mp hc with hc | hc
        · exact hold c hc
        · obtain rfl := List.mem_singleton.mp hc
          by_contra hother
          obtain ⟨a, ha, hprevious⟩ := (hat heq').previous
          have hruns : runningOn first pre c.1 = first c.1 :=
            runningOn_of_not_mem fun d hd heq => hother (heq.symm.trans (hold d hd))
          apply hothers c.1 hother a (List.mem_of_getElem? ha)
          rw [← hprevious, ← hruns]
          exact (hsaves pre c post heq').symm
    exact hpre done List.prefix_rfl
  · intro hall pre c post heq
    have hc : c.1 = boot := hall c (by rw [heq]; exact List.mem_append_right _ (List.mem_cons_self ..))
    obtain ⟨a, ha, hprevious⟩ := (hat heq).previous
    rcases List.eq_nil_or_concat' pre with rfl | ⟨pre, d, rfl⟩
    · -- nobody has switched before
      obtain ⟨hlt, -⟩ := List.getElem?_eq_some_iff.mp hi
      rw [List.length_nil, Nat.add_zero, Nat.mod_eq_of_lt hlt, hi] at ha
      rw [hprevious, hc, ← Option.some.inj ha]
      exact hboot.symm
    · -- the switch before was this processor's too
      rw [List.append_assoc] at heq
      have hd : d.1 = boot := hall d (by rw [heq]; exact List.mem_append_right _ (List.mem_cons_self ..))
      obtain ⟨b, hb, hnext⟩ := (hat heq).next
      rw [List.length_append, List.length_singleton, ← Nat.add_assoc, hb] at ha
      rw [hprevious, hc, ← hd, runningOn_concat, hnext, Option.some.inj ha]

/-- Two processors, the first of which runs one of two processes. -/
theorem saves_own_two_processors :
    ∃ (s : State) (first : Bool → ℕ), ∀ es : List (Event Bool SwitchRegs),
      SavesOwn first (run (System.step switchSection) (System.start s fun _ => true) es).ended ↔
        ∀ c ∈ (run (System.step switchSection) (System.start s fun _ => true) es).ended, c.1 = false := by
  obtain ⟨ps, i, hlength, hring, -⟩ := exists_two_processes
  generalize run (TaskCall.step Mmu.bootPlatform 8 0) bootKernel
    [.initializeProcess 0x1000 1, .initializeProcess 0x2000 0] = s at hring
  refine ⟨s, fun p => if p then 0 else (s.nodes s.currentTask).task, fun es => ?_⟩
  apply saves_own_iff hring hlength.ge _ false rfl
  intro p hp a ha
  obtain ⟨j, -, hj⟩ := hring.task a ha
  rw [if_pos (Bool.eq_true_of_not_eq_false hp), hj]
  exact (hring.blocks.nonnull j).symm

end Cutesugar.Kernel
