import Cutesugar.Lib.Bits
import Cutesugar.Lib.Memory
import Cutesugar.Lib.Run
import Mathlib.Logic.Function.Basic
import Mathlib.Tactic.SplitIfs

/-!
# The task state segment (`kernel/arch/gdt.c`)

Each processor calls `KernelLoadGdt`, with its own stack, and all of them use the one `tss`: its address goes into
two entries of `GDT` in six parts, and `ltr` takes it from there. Apart from `rsp0` nothing is ever stored in it, so
the map of the I/O ports begins at the segment's first byte, and the limit is far behind its last one.

- `kernelLoadGdt`: the function, store by store.
- `taskRegister`: what the processor makes of the two entries.
- `PortOpen`: when ring 3 may use a port.
- `ports_open`: which ports these are, in every state of every run.
-/

namespace Cutesugar.Kernel

open Lib

/-! ## The descriptor -/

/-- The addresses of `GDT` and of `tss`. -/
structure Segments where
  gdt : ℕ
  tss : ℕ
  tss_lt : tss < 2 ^ 64
  apart : Apart gdt 56 tss 106

/-- `KernelLoadGdt` up to `flush_tss`, with the stack pointer of the processor. -/
def loadTss (B : Segments) (mem : Memory) (rsp : UInt64) : Memory :=
  let mem := mem.store (B.tss + 4) 8 rsp.toNat
  let mem := mem.store (B.gdt + 40) 2 (106 - 1)
  let mem := mem.store (B.gdt + 42) 2 (B.tss &&& 0xFFFF)
  let mem := mem.store (B.gdt + 44) 1 ((B.tss >>> 16) &&& 0xFF)
  let mem := mem.store (B.gdt + 45) 1 0x89
  let mem := mem.store (B.gdt + 46) 1 0x0F
  let mem := mem.store (B.gdt + 47) 1 ((B.tss >>> 24) &&& 0xFF)
  let mem := mem.store (B.gdt + 48) 2 ((B.tss >>> 32) &&& 0xFFFF)
  mem.store (B.gdt + 50) 2 ((B.tss >>> 48) &&& 0xFFFF)

/-- A segment that a processor uses as its task state. -/
structure TaskRegister where
  base : ℕ
  limit : ℕ
  deriving DecidableEq

/-- What the processor makes of the 16 bytes of a descriptor that it is given: nothing unless it is present and an
available segment. -/
def taskRegister (mem : Memory) (d : ℕ) : Option TaskRegister :=
  if mem.load (d + 5) 1 = 0x89 then
    let limit := mem.load d 2 + 2 ^ 16 * (mem.load (d + 6) 1 % 2 ^ 4)
    some
      { base := mem.load (d + 2) 2 + 2 ^ 16 * mem.load (d + 4) 1 + 2 ^ 24 * mem.load (d + 7) 1 +
          2 ^ 32 * mem.load (d + 8) 4
        -- the top bit says that the limit counts pages
        limit := if mem.load (d + 6) 1 / 2 ^ 7 % 2 = 1 then 2 ^ 12 * limit + 4095 else limit }
  else none

/-- `ltr`, which marks the segment as busy. -/
def flushTss (B : Segments) (mem : Memory) : Option (TaskRegister × Memory) :=
  (taskRegister mem (B.gdt + 40)).map fun tr => (tr, mem.store (B.gdt + 45) 1 0x8B)

/-- `KernelLoadGdt`. -/
def kernelLoadGdt (B : Segments) (mem : Memory) (rsp : UInt64) : Option (TaskRegister × Memory) :=
  flushTss B (loadTss B mem rsp)

/-! ## Ports -/

/-- **Ring 3 may use a port**: the two bytes at its place in the map are in the segment, and its bit is clear. -/
def PortOpen (mem : Memory) (tr : TaskRegister) (port : ℕ) : Prop :=
  103 ≤ tr.limit ∧ mem.load (tr.base + 102) 2 + port / 8 + 1 ≤ tr.limit ∧
    (mem (tr.base + mem.load (tr.base + 102) 2 + port / 8)).toNat.testBit (port % 8) = false

instance (mem : Memory) (tr : TaskRegister) (port : ℕ) : Decidable (PortOpen mem tr port) :=
  inferInstanceAs (Decidable (_ ∧ _))

/-! ## Runs -/

/-- The memory, and the task registers of the processors. -/
structure TaskSegments (κ : Type) where
  mem : Memory
  task : κ → Option TaskRegister

inductive GdtEvent (κ : Type) where
  /-- A processor calls `KernelLoadGdt`. -/
  | load (p : κ) (rsp : UInt64)
  /-- Something is stored. -/
  | store (a n v : ℕ)

def TaskSegments.step {κ : Type} [DecidableEq κ] (B : Segments) (s : TaskSegments κ) :
    GdtEvent κ → TaskSegments κ
  | .load p rsp =>
    match kernelLoadGdt B s.mem rsp with
    | none => s
    | some (tr, mem) => { mem := mem, task := Function.update s.task p (some tr) }
  | .store a n v => { s with mem := s.mem.store a n v }

/-- What is stored is not stored into `GDT` or `tss`. -/
def GdtEvent.Spares {κ : Type} (B : Segments) : GdtEvent κ → Prop
  | .load _ _ => True
  | .store a n _ => Apart a n B.gdt 56 ∧ Apart a n B.tss 106

/-- The stack pointer of the processor that was the last to call `KernelLoadGdt`. -/
def lastStack {κ : Type} (es : List (GdtEvent κ)) : Option UInt64 :=
  (es.filterMap fun e => match e with
    | .load _ rsp => some rsp
    | .store _ _ _ => none).getLast?

variable {κ : Type} {B : Segments} {mem : Memory} {rsp : UInt64} {s : TaskSegments κ} {es : List (GdtEvent κ)} {p : κ}

/-- `tss`, as it is in every state: nothing but `rsp0`. -/
structure OnlyStack (B : Segments) (mem : Memory) (rsp : ℕ) : Prop where
  rsp0 : mem.load (B.tss + 4) 8 = rsp
  before : ∀ b, B.tss ≤ b → b < B.tss + 4 → mem b = 0
  behind : ∀ b, B.tss + 12 ≤ b → b < B.tss + 106 → mem b = 0

/-! ## The address -/

/-- A load in two parts. -/
theorem load_four (mem : Memory) (a : ℕ) : mem.load a 4 = mem.load a 2 + 2 ^ 16 * mem.load (a + 2) 2 := by
  simp only [Memory.load_succ, Memory.load_zero, Nat.add_assoc, Nat.reduceAdd]
  omega

/-- Sixteen bits of a number, from some bit on. -/
theorem shiftRight_land_word (x i : ℕ) : (x >>> i) &&& 0xFFFF = x / 2 ^ i % 2 ^ 16 := by
  rw [← Nat.shiftRight_eq_div_pow]
  exact Nat.and_two_pow_sub_one_eq_mod _ 16

theorem shiftRight_land_byte (x i : ℕ) : (x >>> i) &&& 0xFF = x / 2 ^ i % 2 ^ 8 := by
  rw [← Nat.shiftRight_eq_div_pow]
  exact Nat.and_two_pow_sub_one_eq_mod _ 8

/-- **The address of `tss` survives** being cut into parts. -/
theorem taskRegister_loadTss (mem : Memory) (rsp : UInt64) :
    taskRegister (loadTss B mem rsp) (B.gdt + 40) = some ⟨B.tss, 0xF0069⟩ := by
  have hlimit : (loadTss B mem rsp).load (B.gdt + 40) 2 = 105 := by
    simp (disch := (unfold Apart; omega)) only [loadTss, Memory.load_store_of_apart, Memory.load_store_same]
    rfl
  have hlow : (loadTss B mem rsp).load (B.gdt + 40 + 2) 2 = B.tss % 2 ^ 16 := by
    simp (disch := (unfold Apart; omega)) only [loadTss, Memory.load_store_of_apart, Memory.load_store_same]
    have hpart : B.tss &&& 0xFFFF = B.tss % 2 ^ 16 := Nat.and_two_pow_sub_one_eq_mod _ 16
    omega
  have hmiddle : (loadTss B mem rsp).load (B.gdt + 40 + 4) 1 = B.tss / 2 ^ 16 % 2 ^ 8 := by
    simp (disch := (unfold Apart; omega)) only [loadTss, Memory.load_store_of_apart, Memory.load_store_same]
    rw [shiftRight_land_byte]
    exact Nat.mod_mod _ _
  have haccess : (loadTss B mem rsp).load (B.gdt + 40 + 5) 1 = 0x89 := by
    simp (disch := (unfold Apart; omega)) only [loadTss, Memory.load_store_of_apart, Memory.load_store_same]
    rfl
  have hflags : (loadTss B mem rsp).load (B.gdt + 40 + 6) 1 = 0x0F := by
    simp (disch := (unfold Apart; omega)) only [loadTss, Memory.load_store_of_apart, Memory.load_store_same]
    rfl
  have hhigh : (loadTss B mem rsp).load (B.gdt + 40 + 7) 1 = B.tss / 2 ^ 24 % 2 ^ 8 := by
    simp (disch := (unfold Apart; omega)) only [loadTss, Memory.load_store_of_apart, Memory.load_store_same]
    rw [shiftRight_land_byte]
    exact Nat.mod_mod _ _
  have hthird : (loadTss B mem rsp).load (B.gdt + 40 + 8) 2 = B.tss / 2 ^ 32 % 2 ^ 16 := by
    simp (disch := (unfold Apart; omega)) only [loadTss, Memory.load_store_of_apart, Memory.load_store_same]
    rw [shiftRight_land_word]
    exact Nat.mod_mod _ _
  have hfourth : (loadTss B mem rsp).load (B.gdt + 40 + 8 + 2) 2 = B.tss / 2 ^ 48 % 2 ^ 16 := by
    simp (disch := (unfold Apart; omega)) only [loadTss, Memory.load_store_same]
    rw [shiftRight_land_word]
    exact Nat.mod_mod _ _
  have hlt := B.tss_lt
  have hbase : B.tss % 2 ^ 16 + 2 ^ 16 * (B.tss / 2 ^ 16 % 2 ^ 8) + 2 ^ 24 * (B.tss / 2 ^ 24 % 2 ^ 8) +
      2 ^ 32 * (B.tss / 2 ^ 32 % 2 ^ 16 + 2 ^ 16 * (B.tss / 2 ^ 48 % 2 ^ 16)) = B.tss := by
    omega
  rw [taskRegister, if_pos haccess, load_four, hlimit, hlow, hmiddle, hflags, hhigh, hthird, hfourth, hbase]
  rfl

/-- In `tss` nothing is stored but the stack pointer. -/
theorem loadTss_apply {b : ℕ} (hb : B.tss ≤ b) (hb' : b < B.tss + 106) :
    loadTss B mem rsp b = mem.store (B.tss + 4) 8 rsp.toNat b := by
  have hapart := B.apart
  unfold Apart at hapart
  rw [loadTss, Memory.store_apply_of_not_mem (by omega), Memory.store_apply_of_not_mem (by omega),
    Memory.store_apply_of_not_mem (by omega), Memory.store_apply_of_not_mem (by omega),
    Memory.store_apply_of_not_mem (by omega), Memory.store_apply_of_not_mem (by omega),
    Memory.store_apply_of_not_mem (by omega), Memory.store_apply_of_not_mem (by omega)]

/-- What `KernelLoadGdt` leaves behind. -/
theorem kernelLoadGdt_eq (mem : Memory) (rsp : UInt64) : kernelLoadGdt B mem rsp =
    some (⟨B.tss, 0xF0069⟩, (loadTss B mem rsp).store (B.gdt + 45) 1 0x8B) := by
  rw [kernelLoadGdt, flushTss, taskRegister_loadTss]
  rfl

/-! ## Runs -/

theorem OnlyStack.congr {mem' : Memory} {v : ℕ} (h : OnlyStack B mem v)
    (hsame : ∀ b, B.tss ≤ b → b < B.tss + 106 → mem' b = mem b) : OnlyStack B mem' v where
  rsp0 := by
    rw [← h.rsp0]
    exact Memory.load_congr fun b hb hb' => hsame b (by omega) (by omega)
  before b hb hb' := (hsame b hb (by omega)).trans (h.before b hb hb')
  behind b hb hb' := (hsame b (by omega) hb').trans (h.behind b hb hb')

theorem OnlyStack.load {v : ℕ} (h : OnlyStack B mem v) (rsp : UInt64) :
    OnlyStack B ((loadTss B mem rsp).store (B.gdt + 45) 1 0x8B) rsp.toNat := by
  have hapart := B.apart
  unfold Apart at hapart
  have hstored : OnlyStack B (mem.store (B.tss + 4) 8 rsp.toNat) rsp.toNat :=
    { rsp0 := by
        rw [Memory.load_store_same]
        exact Nat.mod_eq_of_lt rsp.toNat_lt
      before := fun b hb hb' => (Memory.store_apply_of_not_mem (by omega)).trans (h.before b hb hb')
      behind := fun b hb hb' => (Memory.store_apply_of_not_mem (by omega)).trans (h.behind b hb hb') }
  refine hstored.congr fun b hb hb' => ?_
  rw [Memory.store_apply_of_not_mem (by omega), loadTss_apply hb hb']

/-- What holds after some events. -/
structure TssShared (B : Segments) (s : TaskSegments κ) (last : Option UInt64) : Prop where
  stack : OnlyStack B s.mem ((last.map UInt64.toNat).getD 0)
  task : ∀ p tr, s.task p = some tr → tr = ⟨B.tss, 0xF0069⟩ ∧ last ≠ none

variable [DecidableEq κ]

/-- **Step lemma.** -/
theorem TssShared.step {last : Option UInt64} (h : TssShared B s last) {e : GdtEvent κ} (he : e.Spares B) :
    TssShared B (s.step B e) ((lastStack [e]).or last) := by
  cases e with
  | load p rsp =>
    have hstep : s.step B (.load p rsp) =
        { mem := (loadTss B s.mem rsp).store (B.gdt + 45) 1 0x8B
          task := Function.update s.task p (some ⟨B.tss, 0xF0069⟩) } := by
      rw [TaskSegments.step, kernelLoadGdt_eq]
    rw [hstep]
    refine { stack := h.stack.load rsp, task := fun q tr htr => ?_ }
    by_cases hq : q = p
    · subst hq
      change Function.update s.task q _ q = some tr at htr
      rw [Function.update_self] at htr
      exact ⟨(Option.some.inj htr).symm, by simp [lastStack]⟩
    · change Function.update s.task p _ q = some tr at htr
      rw [Function.update_of_ne hq] at htr
      exact ⟨(h.task q tr htr).1, by simp [lastStack]⟩
  | store a n v =>
    obtain ⟨-, htss⟩ := he
    unfold Apart at htss
    exact
      { stack := h.stack.congr fun b hb hb' => Memory.store_apply_of_not_mem (by omega)
        task := h.task }

omit [DecidableEq κ] in
theorem lastStack_concat (es : List (GdtEvent κ)) (e : GdtEvent κ) :
    lastStack (es ++ [e]) = (lastStack [e]).or (lastStack es) := by
  rw [lastStack, List.filterMap_append, List.getLast?_append]
  rfl

/-- **Run lemma.** -/
theorem TssShared.run (h : TssShared B s none) (hes : ∀ e ∈ es, e.Spares B) :
    TssShared B (Lib.run (TaskSegments.step B) s es) (lastStack es) := by
  induction es using List.reverseRecOn with
  | nil => exact h
  | append_singleton es e ih =>
    rw [run_append, lastStack_concat]
    obtain ⟨hfirst, hlast⟩ := List.forall_mem_append.mp hes
    exact (ih hfirst).step (hlast e (List.mem_singleton_self e))

/-! ## Ports -/

/-- A byte of the stack pointer is eight ports. -/
theorem OnlyStack.portOpen_iff {v : ℕ} (h : OnlyStack B mem v) {port : ℕ} (hport : port < 848) :
    PortOpen mem ⟨B.tss, 0xF0069⟩ port ↔ port < 32 ∨ 96 ≤ port ∨ v.testBit (port - 32) = false := by
  have hmap : mem.load (B.tss + 102) 2 = 0 :=
    Memory.load_eq_zero fun b hb hb' => h.behind b (by omega) (by omega)
  have hopen : PortOpen mem ⟨B.tss, 0xF0069⟩ port ↔
      (mem (B.tss + port / 8)).toNat.testBit (port % 8) = false := by
    rw [PortOpen, hmap]
    have hlimit : 0 + port / 8 + 1 ≤ 0xF0069 := by omega
    exact ⟨fun hopen => hopen.2.2, fun hbit => ⟨show 103 ≤ 0xF0069 by decide, hlimit, hbit⟩⟩
  rw [hopen]
  rcases Nat.lt_or_ge port 32 with hlow | hlow
  · rw [h.before _ (by omega) (by omega)]
    exact iff_of_true (Nat.zero_testBit _) (.inl hlow)
  rcases Nat.lt_or_ge port 96 with hhigh | hhigh
  · have hbyte : mem.load (B.tss + 4) 8 / 256 ^ (port / 8 - 4) % 256 = (mem (B.tss + port / 8)).toNat := by
      rw [Memory.load_byte (by omega), Nat.add_assoc]
      congr 2
      omega
    have hbit : (mem (B.tss + port / 8)).toNat.testBit (port % 8) = v.testBit (port - 32) := by
      rw [← hbyte, h.rsp0, show 256 = 2 ^ 8 by rfl, ← pow_mul, Nat.testBit_mod_two_pow, Nat.testBit_div_two_pow,
        decide_eq_true (Nat.mod_lt port (by decide)), Bool.true_and]
      congr 1
      omega
    rw [hbit]
    exact ⟨fun hclear => .inr (.inr hclear), fun hor => (hor.resolve_left (by omega)).resolve_left (by omega)⟩
  · rw [h.behind _ (by omega) (by omega)]
    exact iff_of_true (Nat.zero_testBit _) (.inr (.inl hhigh))

/-- **One segment for all**: after any calls of `KernelLoadGdt` by any processors, every processor that has called
it takes the stack of the one that called last, and opens all of the first 848 ports to ring 3 but for those where
that stack pointer has a bit set. -/
theorem ports_open (hzero : ∀ b, B.tss ≤ b → b < B.tss + 106 → s.mem b = 0) (hnone : ∀ p, s.task p = none)
    (hes : ∀ e ∈ es, e.Spares B) {tr : TaskRegister}
    (htr : (run (TaskSegments.step B) s es).task p = some tr) :
    ∃ rsp, lastStack es = some rsp ∧
      (run (TaskSegments.step B) s es).mem.load (tr.base + 4) 8 = rsp.toNat ∧
      ∀ port < 848, PortOpen (run (TaskSegments.step B) s es).mem tr port ↔
        port < 32 ∨ 96 ≤ port ∨ rsp.toNat.testBit (port - 32) = false := by
  have hstart : TssShared B s none :=
    { stack :=
        { rsp0 := Memory.load_eq_zero fun b hb hb' => hzero b (by omega) (by omega)
          before := fun b hb hb' => hzero b hb (by omega)
          behind := fun b hb hb' => hzero b (by omega) hb' }
      task := fun p tr htr => absurd ((hnone p).symm.trans htr) (by simp) }
  have hrun := hstart.run hes
  obtain ⟨rfl, hlast⟩ := hrun.task p tr htr
  obtain ⟨rsp, hrsp⟩ := Option.ne_none_iff_exists'.mp hlast
  have hstack := hrun.stack
  rw [hrsp] at hstack
  exact ⟨rsp, hrsp, hstack.rsp0, fun port hport => hstack.portOpen_iff hport⟩

def smallSegments : Segments where
  gdt := 0x1000
  tss := 0x2000
  tss_lt := by decide
  apart := by decide

/-- The events of two processors. -/
def twoLoads : List (GdtEvent Bool) :=
  [.load true 0xFFFFFFFF80009000, .store 0x3000 8 5, .load false 0xFFFFFFFF8000A000]

/-- The first of two processors shares the stack of the second one, and opens the port of the keyboard. -/
theorem two_processors_share : ∃ tr,
    (run (TaskSegments.step smallSegments) ⟨fun _ => 0, fun _ => none⟩ twoLoads).task true = some tr ∧
      (run (TaskSegments.step smallSegments) ⟨fun _ => 0, fun _ => none⟩ twoLoads).mem.load (tr.base + 4) 8 =
        0xFFFFFFFF8000A000 ∧
      PortOpen (run (TaskSegments.step smallSegments) ⟨fun _ => 0, fun _ => none⟩ twoLoads).mem tr 0x60 := by
  have htask : (run (TaskSegments.step smallSegments) ⟨fun _ => 0, fun _ => none⟩ twoLoads).task true =
      some ⟨0x2000, 0xF0069⟩ := by
    simp only [twoLoads, run_cons, run_nil, TaskSegments.step, kernelLoadGdt_eq]
    rfl
  have hspares : ∀ e ∈ twoLoads, e.Spares smallSegments := by
    simp only [twoLoads, List.forall_mem_cons, List.not_mem_nil, false_imp_iff, implies_true, and_true]
    exact ⟨trivial, ⟨by decide, by decide⟩, trivial⟩
  obtain ⟨rsp, hrsp, hstack, hports⟩ := ports_open (fun _ _ _ => rfl) (fun _ => rfl) hspares htask
  obtain rfl : rsp = 0xFFFFFFFF8000A000 := (Option.some.inj hrsp).symm
  exact ⟨_, htask, hstack, (hports 0x60 (by decide)).mpr (.inr (.inl (by decide)))⟩

end Cutesugar.Kernel
