import Cutesugar.Kernel.Arch.TaskSpec
import Cutesugar.Lib.Run
import Mathlib.Data.List.Perm.Basic
import Mathlib.Data.List.Range

/-!
# The scheduler ring

From `first_task` the processes are linked in the order of their creation. The list of one
process ends in the null pointer; from two processes on the last node points back to the first.

## Structure

- `TaskCall`: creations and switches, and their runs.
- `Ring`: the shape of the list, with `RingInv` what the next creation relies on.
- `lap`: the processes that consecutive switches make current.
-/

namespace Cutesugar.Kernel

open Lib

/-! ## Runs -/

inductive TaskCall where
  | initializeProcess (rip permissions : ℕ)
  | cloneProcess (rip ursp : ℕ)
  | switchProcess (rsp : ℕ)

/-- The state after a call that returns. -/
def TaskCall.result (P : Mmu.Platform) (fuel resumeUser : ℕ) (s : State) : TaskCall → Option State
  | .initializeProcess rip permissions => kernelInitializeProcess P fuel s rip permissions
  | .cloneProcess rip ursp => (kernelCloneProcess P fuel resumeUser s rip ursp).map Prod.snd
  | .switchProcess rsp => some (kernelSwitchProcess s rsp)

def TaskCall.step (P : Mmu.Platform) (fuel resumeUser : ℕ) (s : State) (c : TaskCall) : State :=
  (c.result P fuel resumeUser s).getD s

/-- The call returns. -/
def TaskCall.Returns (P : Mmu.Platform) (fuel resumeUser : ℕ) (s : State) (c : TaskCall) : Prop :=
  (c.result P fuel resumeUser s).isSome

instance (P : Mmu.Platform) (fuel resumeUser : ℕ) (s : State) (c : TaskCall) :
    Decidable (c.Returns P fuel resumeUser s) :=
  inferInstanceAs (Decidable (_ = true))

def TaskCall.creates : TaskCall → Bool
  | .initializeProcess _ _ => true
  | .cloneProcess _ _ => true
  | .switchProcess _ => false

/-- `malloc` returns distinct blocks, never the null pointer. -/
structure Blocks (s : State) : Prop where
  nonnull : ∀ i, s.blocks i ≠ 0
  injective : Function.Injective s.blocks

/-- No process was created yet and the nodes to come are zero-filled. -/
structure Start (s : State) : Prop where
  blocks : Blocks s
  first : s.firstTask = 0
  current : s.currentTask = 0
  pid : s.processId = 0
  zero : ∀ i, s.mallocs ≤ i → (s.nodes (s.blocks i)).next = 0

/-! ## The ring -/

/-- The list visits the nodes `ps`, each once and in the order of the identifiers, and the
current node is one of them. -/
structure Ring (s : State) (ps : List ℕ) : Prop where
  nodup : ps.Nodup
  chain : ps ≠ [] → Chain (fun t => (s.nodes t).next) s.firstTask ps
    (if 2 ≤ ps.length then s.firstTask else 0)
  current : ps ≠ [] → s.currentTask ∈ ps
  ids : ps.map (fun p => (s.tasks (s.nodes p).task).id) =
    (List.range ps.length).map fun i => pidValue (BitVec.ofNat 32 (i + 1))

/-- The ring, and the blocks and the identifier for the next node. -/
structure RingInv (s : State) (ps : List ℕ) : Prop extends Ring s ps where
  blocks : Blocks s
  pid : s.processId = BitVec.ofNat 32 ps.length
  empty : ps = [] → s.firstTask = 0 ∧ s.currentTask = 0
  node : ∀ p ∈ ps, ∃ i < s.mallocs, p = s.blocks i
  task : ∀ p ∈ ps, ∃ i < s.mallocs, (s.nodes p).task = s.blocks i
  zero : ∀ i, s.mallocs ≤ i → (s.nodes (s.blocks i)).next = 0

variable {P : Mmu.Platform} {fuel resumeUser : ℕ} {s s' : State} {ps : List ℕ}

theorem RingInv.start (h : Start s) : RingInv s [] where
  nodup := List.nodup_nil
  chain hne := absurd rfl hne
  current hne := absurd rfl hne
  ids := rfl
  blocks := h.blocks
  pid := h.pid
  empty _ := ⟨h.first, h.current⟩
  node _ hp := absurd hp List.not_mem_nil
  task _ hp := absurd hp List.not_mem_nil
  zero := h.zero

theorem RingInv.nonnull (h : RingInv s ps) {p : ℕ} (hp : p ∈ ps) : p ≠ 0 := by
  obtain ⟨i, -, rfl⟩ := h.node p hp
  exact h.blocks.nonnull i

theorem RingInv.ne_nil (h : RingInv s ps) (hfirst : s.firstTask ≠ 0) : ps ≠ [] :=
  fun hnil => hfirst (h.empty hnil).1

/-- Blocks of the ring differ from those to come. -/
theorem RingInv.node_ne (h : RingInv s ps) {p i : ℕ} (hp : p ∈ ps) (hi : s.mallocs ≤ i) :
    p ≠ s.blocks i := by
  obtain ⟨j, hj, rfl⟩ := h.node p hp
  exact fun heq => (hj.trans_le hi).ne (h.blocks.injective heq)

theorem RingInv.task_ne (h : RingInv s ps) {p i : ℕ} (hp : p ∈ ps) (hi : s.mallocs ≤ i) :
    (s.nodes p).task ≠ s.blocks i := by
  obtain ⟨j, hj, heq⟩ := h.task p hp
  rw [heq]
  exact fun heq => (hj.trans_le hi).ne (h.blocks.injective heq)

/-- The list starts at its first node. -/
theorem Ring.first_eq {p : ℕ} {qs : List ℕ} (h : Ring s (p :: qs)) : s.firstTask = p :=
  (h.chain (by simp)).1

/-- **The end of the list** is where both creators stop searching. -/
theorem RingInv.lastNode (h : RingInv s ps) {init : List ℕ} {l : ℕ} (hps : ps = init ++ [l]) :
    Chain (fun t => (s.nodes t).next) s.firstTask init l ∧
      ((s.nodes l).next = 0 ∨ (s.nodes l).next = s.firstTask) ∧
      ∀ p ∈ init, (s.nodes p).next ≠ 0 ∧ (s.nodes p).next ≠ s.firstTask := by
  subst hps
  obtain ⟨hinit, hend, hgo⟩ :=
    (h.chain (by simp)).before_last h.nodup fun p hp => h.nonnull hp
  refine ⟨hinit, ?_, hgo⟩
  rw [hend]
  split_ifs
  · exact .inr rfl
  · exact .inl rfl

/-! ## Creation -/

/-- **First process**: a list of one node. -/
theorem RingInv.first (h : RingInv s []) {permissions : UInt8}
    (hc : CreatedFirst s s' permissions) : RingInv s' [s.blocks s.mallocs] := by
  obtain ⟨t, htasks, hid, -⟩ := hc.tasks
  have hmallocs := hc.mallocs
  refine { nodup := List.nodup_singleton _, chain := fun _ => ?_, current := fun _ => ?_,
           ids := ?_, blocks := ?_, pid := ?_, empty := fun hnil => absurd hnil (by simp),
           node := ?_, task := ?_, zero := ?_ }
  · simp [hc.first, hc.nodes, h.zero]
  · simp [hc.current]
  · have hpid := h.pid
    simp only [List.length_nil] at hpid
    simp [hc.nodes, htasks, hid, hpid]
  · exact ⟨hc.blocks ▸ h.blocks.nonnull, hc.blocks ▸ h.blocks.injective⟩
  · rw [hc.pid, h.pid]
    rfl
  · intro p hp
    rw [hc.blocks]
    exact ⟨s.mallocs, by omega, by simpa using hp⟩
  · intro p hp
    obtain rfl : p = s.blocks s.mallocs := by simpa using hp
    exact ⟨s.mallocs + 1, by omega, by rw [hc.nodes, hc.blocks, Function.update_self]⟩
  · intro i hi
    rw [hc.blocks, hc.nodes, Function.update_of_ne]
    · exact h.zero i (by omega)
    · exact fun heq => by have := h.blocks.injective heq; omega

/-- **Later process**: one more node behind the last one, before the first. -/
theorem RingInv.append (h : RingInv s ps) (hfirst : s.firstTask ≠ 0) {permissions : UInt8}
    (hc : Created fuel s s' permissions) : RingInv s' (ps ++ [s.blocks s.mallocs]) := by
  obtain ⟨last, hlast, hnodes⟩ := hc.nodes
  obtain ⟨t, htasks, hid, -⟩ := hc.tasks
  have hmallocs := hc.mallocs
  have hne := h.ne_nil hfirst
  obtain ⟨init, l, rfl⟩ : ∃ init l, ps = init ++ [l] :=
    ⟨_, _, (List.dropLast_append_getLast hne).symm⟩
  obtain ⟨hinit, hend, hgo⟩ := h.lastNode rfl
  obtain rfl : last = l := by
    refine walk_eq_of_chain hlast hinit (by simpa using hend) fun p hp => ?_
    simpa using hgo p hp
  -- the two nodes written
  have hfresh : ∀ p ∈ init ++ [last], p ≠ s.blocks s.mallocs :=
    fun p hp => h.node_ne hp le_rfl
  have hlast_ne := hfresh last (by simp)
  have hnew : s'.nodes (s.blocks s.mallocs) =
      { task := s.blocks (s.mallocs + 1), next := s.firstTask } := by
    rw [hnodes, Function.update_of_ne hlast_ne.symm, Function.update_self]
  have hlast' : s'.nodes last = { s.nodes last with next := s.blocks s.mallocs } := by
    rw [hnodes, Function.update_self, Function.update_of_ne hlast_ne]
  have hother : ∀ p, p ≠ last → p ≠ s.blocks s.mallocs → s'.nodes p = s.nodes p := by
    intro p hp hp'
    rw [hnodes, Function.update_of_ne hp, Function.update_of_ne hp']
  have htask : ∀ p ∈ init ++ [last], (s'.nodes p).task = (s.nodes p).task := by
    intro p hp
    rcases eq_or_ne p last with rfl | hpl
    · rw [hlast']
    · rw [hother p hpl (hfresh p hp)]
  have hpid : s.processId + 1 = BitVec.ofNat 32 ((init ++ [last]).length + 1) := by
    rw [h.pid, BitVec.ofNat_add]
    rfl
  have hlen : (init ++ [last] ++ [s.blocks s.mallocs]).length = (init ++ [last]).length + 1 := by
    rw [List.length_append, List.length_singleton]
  have hlast_init : last ∉ init := fun hmem =>
    (List.nodup_append.mp h.nodup).2.2 last hmem last (by simp) rfl
  refine { nodup := ?_, chain := fun _ => ?_, current := fun _ => ?_, ids := ?_, blocks := ?_,
           pid := ?_, empty := fun hnil => absurd hnil (by simp), node := ?_, task := ?_,
           zero := ?_ }
  · refine List.nodup_append.mpr ⟨h.nodup, List.nodup_singleton _, fun p hp q hq => ?_⟩
    rw [List.mem_singleton.mp hq]
    exact hfresh p hp
  · rw [if_pos (by simp), hc.first]
    refine chain_append.mpr ⟨s.blocks s.mallocs, ?_, rfl, by simp only [hnew, chain_nil]⟩
    refine (h.chain hne).redirect hlast_init (by simp only [hlast']) fun p hp => ?_
    rw [hother p (fun heq => hlast_init (heq ▸ hp)) (hfresh p (by simp [hp]))]
  · rw [hc.current]
    exact List.mem_append_left _ (h.current hne)
  · have hold : (init ++ [last]).map (fun p => (s'.tasks (s'.nodes p).task).id) =
        (init ++ [last]).map (fun p => (s.tasks (s.nodes p).task).id) := by
      refine List.map_congr_left fun p hp => ?_
      rw [htask p hp, htasks, Function.update_of_ne (h.task_ne hp (Nat.le_succ _))]
    rw [List.map_append, hold, h.ids, hlen, List.range_succ, List.map_append]
    simp only [List.map_cons, List.map_nil, hnew, htasks, Function.update_self, hid, hpid]
  · exact ⟨hc.blocks ▸ h.blocks.nonnull, hc.blocks ▸ h.blocks.injective⟩
  · rw [hc.pid, hpid, hlen]
  · intro p hp
    rw [hc.blocks]
    rcases List.mem_append.mp hp with hp | hp
    · obtain ⟨i, hi, heq⟩ := h.node p hp
      exact ⟨i, by omega, heq⟩
    · exact ⟨s.mallocs, by omega, List.mem_singleton.mp hp⟩
  · intro p hp
    rw [hc.blocks]
    rcases List.mem_append.mp hp with hp | hp
    · obtain ⟨i, hi, heq⟩ := h.task p hp
      exact ⟨i, by omega, by rw [htask p hp, heq]⟩
    · obtain rfl := List.mem_singleton.mp hp
      exact ⟨s.mallocs + 1, by omega, by rw [hnew]⟩
  · intro i hi
    have hne_new : s.blocks i ≠ s.blocks s.mallocs := fun heq => by
      have := h.blocks.injective heq
      omega
    rw [hc.blocks, hother _ (h.node_ne (p := last) (by simp) (by omega)).symm hne_new]
    exact h.zero i (by omega)

/-! ## Switching -/

/-- The node that a switch makes current. -/
def succNode (s : State) (t : ℕ) : ℕ := if (s.nodes t).next = 0 then t else (s.nodes t).next

/-- Moving on from node to node goes round the ring, also with a single process. -/
theorem RingInv.cycle (h : RingInv s ps) (hne : ps ≠ []) :
    Chain (succNode s) s.firstTask ps s.firstTask := by
  obtain ⟨init, l, rfl⟩ : ∃ init l, ps = init ++ [l] :=
    ⟨_, _, (List.dropLast_append_getLast hne).symm⟩
  obtain ⟨hinit, -, hgo⟩ := h.lastNode rfl
  obtain ⟨b, hb, rfl, hend⟩ := chain_append.mp (h.chain hne)
  refine chain_append.mpr ⟨b, hinit.congr fun p hp => if_neg (hgo p hp).1, rfl, ?_⟩
  simp only [chain_nil] at hend ⊢
  split_ifs at hend with hlen
  · have hfirst : s.firstTask ≠ 0 := by
      intro hzero
      cases init with
      | nil => simp at hlen
      | cons p init => exact h.nonnull (p := p) (by simp) (h.first_eq ▸ hzero)
    rw [succNode, hend, if_neg hfirst]
  · have hnil : init = [] := by
      cases init with
      | nil => rfl
      | cons p init => simp at hlen
    subst hnil
    rw [succNode, if_pos hend]
    exact hinit.symm

/-- The order in which the ring is walked from the node behind `c` round to `c`. -/
theorem RingInv.rotation (h : RingInv s ps) {pre post : List ℕ} {c : ℕ}
    (hps : ps = pre ++ c :: post) :
    Chain (succNode s) (succNode s c) (post ++ pre ++ [c]) (succNode s c) := by
  subst hps
  obtain ⟨b, hpre, rfl, hpost⟩ := chain_append.mp (h.cycle (by simp))
  exact chain_append.mpr ⟨b, chain_append.mpr ⟨s.firstTask, hpost, hpre⟩, rfl, rfl⟩

theorem RingInv.succNode_mem (h : RingInv s ps) {c : ℕ} (hc : c ∈ ps) : succNode s c ∈ ps := by
  obtain ⟨pre, post, hps⟩ := List.append_of_mem hc
  have hrot := h.rotation hps
  have hmem : succNode s c ∈ post ++ pre ++ [c] := by
    cases hlist : post ++ pre ++ [c] with
    | nil => simp at hlist
    | cons x xs =>
      rw [hlist] at hrot
      rw [hrot.1]
      exact List.mem_cons_self ..
  rw [hps]
  simp only [List.mem_append, List.mem_cons] at hmem ⊢
  tauto

/-- **Switch step.** -/
theorem RingInv.switch (h : RingInv s ps) (rsp : ℕ) :
    RingInv (kernelSwitchProcess s rsp) ps ∧
      (kernelSwitchProcess s rsp).nodes = s.nodes ∧
      (ps ≠ [] → (kernelSwitchProcess s rsp).currentTask = succNode s s.currentTask) := by
  rcases kernelSwitchProcess_spec s rsp with ⟨heq, hstay⟩ | ⟨hcurrent, hnext, prev, t, cr3, heq, hid, -⟩
  · refine ⟨heq.symm ▸ h, by rw [heq], fun hne => ?_⟩
    rw [heq, succNode, if_pos (hstay.resolve_left (h.nonnull (h.current hne)))]
  · rw [heq]
    have hne : ps ≠ [] := fun hnil => hcurrent (h.empty hnil).2
    have hsucc : (s.nodes s.currentTask).next = succNode s s.currentTask := (if_neg hnext).symm
    refine ⟨{ nodup := h.nodup, chain := h.chain, current := fun _ => ?_, ids := ?_,
              blocks := ⟨h.blocks.nonnull, h.blocks.injective⟩, pid := h.pid,
              empty := fun hnil => absurd hnil hne, node := h.node, task := h.task,
              zero := h.zero }, rfl, fun _ => hsucc⟩
    · exact hsucc ▸ h.succNode_mem (h.current hne)
    · rw [← h.ids]
      refine List.map_congr_left fun p _ => ?_
      simp only
      rcases eq_or_ne (s.nodes p).task (s.nodes s.currentTask).task with htask | htask
      · rw [htask, Function.update_self, hid]
      · rw [Function.update_of_ne htask]

/-- The processes that consecutive switches make current; `rsps` are the stack pointers saved. -/
def lap (s : State) : List ℕ → List ℕ
  | [] => []
  | rsp :: rsps =>
    (kernelSwitchProcess s rsp).currentTask :: lap (kernelSwitchProcess s rsp) rsps

/-- Switches walk the ring. -/
theorem RingInv.lap_eq (h : RingInv s ps) (hne : ps ≠ []) {xs rsps : List ℕ} {b : ℕ}
    (hchain : Chain (succNode s) (succNode s s.currentTask) xs b)
    (hlen : rsps.length = xs.length) : lap s rsps = xs := by
  induction rsps generalizing s xs with
  | nil => exact (List.eq_nil_of_length_eq_zero hlen.symm).symm
  | cons rsp rsps ih =>
    obtain ⟨hnext, hnodes, hcurrent⟩ := h.switch rsp
    cases xs with
    | nil => simp at hlen
    | cons x xs =>
      have hsucc : succNode (kernelSwitchProcess s rsp) = succNode s := by
        funext t
        rw [succNode, succNode, hnodes]
      obtain ⟨rfl, hrest⟩ := hchain
      rw [lap, hcurrent hne, ih hnext (by rwa [hsucc, hcurrent hne]) (by simpa using hlen)]

/-- **A lap**: as many switches as there are processes go through the nodes behind the current
one, then from the first on to the current one. -/
theorem RingInv.lap_rotation (h : RingInv s ps) {pre post rsps : List ℕ}
    (hps : ps = pre ++ s.currentTask :: post) (hlen : rsps.length = ps.length) :
    lap s rsps = post ++ pre ++ [s.currentTask] := by
  refine h.lap_eq (by simp [hps]) (h.rotation hps) ?_
  rw [hlen, hps]
  simp only [List.length_append, List.length_cons, List.length_nil]
  omega

/-! ## Whole runs -/

/-- **Step lemma**: creations append their node to the ring, switches keep it. -/
theorem RingInv.step (h : RingInv s ps) {c : TaskCall} (hret : c.Returns P fuel resumeUser s) :
    RingInv (c.step P fuel resumeUser s)
      (if c.creates then ps ++ [s.blocks s.mallocs] else ps) ∧
      (c.creates → ps ≠ [] → (c.step P fuel resumeUser s).currentTask = s.currentTask) := by
  obtain ⟨s', hresult⟩ := Option.isSome_iff_exists.mp hret
  have hstep : c.step P fuel resumeUser s = s' := by rw [TaskCall.step, hresult]; rfl
  rw [hstep]
  cases c with
  | initializeProcess rip permissions =>
    by_cases hfirst : s.firstTask = 0
    · have hnil : ps = [] := by
        cases ps with
        | nil => rfl
        | cons p qs => exact absurd (h.first_eq ▸ hfirst) (h.nonnull (List.mem_cons_self ..))
      subst hnil
      exact ⟨h.first (initializeFirst_spec hfirst hresult), fun _ hne => absurd rfl hne⟩
    · have hcreated := initializeNext_spec hfirst hresult
      exact ⟨h.append hfirst hcreated, fun _ _ => hcreated.current⟩
  | cloneProcess rip ursp =>
    obtain ⟨⟨id, s₁⟩, hclone, rfl⟩ := Option.map_eq_some_iff.mp hresult
    obtain ⟨hfirst, -, hcreated⟩ := kernelCloneProcess_spec hclone
    exact ⟨h.append hfirst hcreated, fun _ _ => hcreated.current⟩
  | switchProcess rsp =>
    obtain rfl := Option.some.inj hresult
    exact ⟨(h.switch rsp).1, fun hc => absurd hc (by simp [TaskCall.creates])⟩

/-- **Run lemma**: after any calls that return there is a ring of as many processes as were
created. -/
theorem RingInv.run (h : RingInv s ps) {calls : List TaskCall}
    (hret : Along (TaskCall.step P fuel resumeUser)
      (fun s c => c.Returns P fuel resumeUser s) s calls) :
    ∃ qs, RingInv (Lib.run (TaskCall.step P fuel resumeUser) s calls) (ps ++ qs) ∧
      qs.length = calls.countP TaskCall.creates := by
  induction calls generalizing s ps with
  | nil => exact ⟨[], by simpa using h, rfl⟩
  | cons c calls ih =>
    obtain ⟨hc, hcalls⟩ := hret
    have hstep := (h.step hc).1
    by_cases hcreates : c.creates = true
    · rw [if_pos hcreates] at hstep
      obtain ⟨qs, hring, hlen⟩ := ih hstep hcalls
      refine ⟨s.blocks s.mallocs :: qs, by simpa using hring, ?_⟩
      rw [List.countP_cons_of_pos hcreates, List.length_cons, hlen]
    · rw [if_neg hcreates] at hstep
      obtain ⟨qs, hring, hlen⟩ := ih hstep hcalls
      exact ⟨qs, hring, by rw [List.countP_cons_of_neg hcreates, hlen]⟩

end Cutesugar.Kernel
