import Cutesugar.Kernel.Arch.TaskPrivilege

/-!
# The search for a process

`find_process` walks over the task list and ends at a task with the identifier or at the null pointer.
The list of one process ends in the null pointer. From the second process on it is a ring, and a search
for an identifier that no process has goes round it forever.

- `Spawned`: runs of the task calls, with the tasks that were created.
- `Spawned.Finds`: the search ends with the right answer.
- `find_process_iff`: after which runs, and for which identifiers, it does.
-/

namespace Cutesugar.Kernel

open Lib

variable {P : Mmu.Platform} {fuel resumeUser id : ℕ} {s : State} {ps : List ℕ} {c : TaskCall}

/-! ## Created tasks -/

/-- A kernel with the tasks created so far, in the order of their creation. -/
structure Spawned where
  kernel : State
  tasks : List ℕ

/-- A call, where the second block of a creation is that of the task. -/
def Spawned.step (P : Mmu.Platform) (fuel resumeUser : ℕ) (b : Spawned) (c : TaskCall) : Spawned where
  kernel := c.step P fuel resumeUser b.kernel
  tasks := if c.creates then b.tasks ++ [b.kernel.blocks (b.kernel.mallocs + 1)] else b.tasks

/-- The search for an identifier ends, at a created task with it if there is one and with the null
pointer otherwise. -/
def Spawned.Finds (b : Spawned) (id : ℕ) : Prop :=
  ∃ rounds t, findProcess rounds b.kernel id = some t ∧
    (t ∈ b.tasks ∧ (b.kernel.tasks t).id = id ∨ t = 0 ∧ ∀ u ∈ b.tasks, (b.kernel.tasks u).id ≠ id)

/-- The ring, whose tasks are the ones created. -/
structure SpawnInv (b : Spawned) (ps : List ℕ) : Prop extends RingInv b.kernel ps where
  tasks : b.tasks = ps.map fun p => (b.kernel.nodes p).task

variable {b : Spawned}

theorem SpawnInv.start (h : Start s) : SpawnInv ⟨s, []⟩ [] where
  toRingInv := RingInv.start h
  tasks := rfl

/-- **Step lemma**: a creation adds its node to the ring and its task to the created ones. -/
theorem SpawnInv.step (h : SpawnInv b ps) (hret : c.Returns P fuel resumeUser b.kernel) :
    SpawnInv (b.step P fuel resumeUser c)
      (if c.creates then ps ++ [b.kernel.blocks b.kernel.mallocs] else ps) := by
  have hring := (h.toRingInv.step hret).1
  by_cases hc : c.creates
  · rw [if_pos hc] at hring ⊢
    refine { toRingInv := hring, tasks := ?_ }
    obtain ⟨permissions, ha, -⟩ := TaskCall.allocated hc hret
    have hold : ps.map (fun p => ((c.step P fuel resumeUser b.kernel).nodes p).task) =
        ps.map fun p => (b.kernel.nodes p).task := by
      apply List.map_congr_left
      intro p hp
      exact ha.oldNode p (h.node_ne hp le_rfl)
    simp only [Spawned.step, if_pos hc, List.map_append, List.map_singleton, hold, ha.newNode, h.tasks]
  · rw [if_neg hc] at hring ⊢
    refine { toRingInv := hring, tasks := ?_ }
    simp only [Spawned.step, if_neg hc, h.tasks]
    -- a switch writes no node
    cases c with
    | initializeProcess rip permissions => exact absurd rfl hc
    | cloneProcess rip ursp => exact absurd rfl hc
    | switchProcess rsp =>
      have hnodes : (kernelSwitchProcess b.kernel rsp).nodes = b.kernel.nodes :=
        (h.toRingInv.switch rsp).2.1
      change _ = ps.map fun p => ((kernelSwitchProcess b.kernel rsp).nodes p).task
      rw [hnodes]

/-- **Run lemma.** -/
theorem SpawnInv.run (h : SpawnInv b ps) {calls : List TaskCall}
    (hret : Along (Spawned.step P fuel resumeUser) (fun b c => c.Returns P fuel resumeUser b.kernel)
      b calls) :
    ∃ qs, SpawnInv (Lib.run (Spawned.step P fuel resumeUser) b calls) qs ∧
      qs.length = ps.length + calls.countP TaskCall.creates := by
  refine hret.counts List.length h fun b c ps h hc => ⟨_, h.step hc, ?_⟩
  split_ifs
  · rw [List.length_append, List.length_singleton]
  · rfl

/-! ## The search -/

/-- The identifiers of the ring are the numbers from 1 on. -/
theorem RingInv.exists_id_iff (h : RingInv s ps) :
    (∃ p ∈ ps, (s.tasks (s.nodes p).task).id = id) ↔
      ∃ i < ps.length, pidValue (BitVec.ofNat 32 (i + 1)) = id := by
  have hmem : id ∈ ps.map (fun p => (s.tasks (s.nodes p).task).id) ↔
      id ∈ (List.range ps.length).map fun i => pidValue (BitVec.ofNat 32 (i + 1)) := by
    rw [h.ids]
  simpa using hmem

/-- In a ring of two or more processes no link is null. -/
theorem RingInv.next_ne (h : RingInv s ps) (hring : 2 ≤ ps.length) {p : ℕ} (hp : p ∈ ps) :
    (s.nodes p).next ≠ 0 := by
  have hne : ps ≠ [] := List.ne_nil_of_mem hp
  obtain ⟨init, l, rfl⟩ : ∃ init l, ps = init ++ [l] :=
    ⟨_, _, (List.dropLast_append_getLast hne).symm⟩
  obtain ⟨-, hend, hgo⟩ := (h.chain hne).before_last h.nodup fun p hp => h.nonnull hp
  rcases List.mem_append.mp hp with hinit | hlast
  · exact (hgo p hinit).1
  · -- the last node leads back to the first
    rw [List.mem_singleton.mp hlast, hend, if_pos hring]
    obtain ⟨q, qs, hps⟩ := List.exists_cons_of_ne_nil hne
    have hfirst : s.firstTask = q := (hps ▸ h.toRing).first_eq
    rw [hfirst]
    exact h.nonnull (hps ▸ List.mem_cons_self ..)

/-- A list of at most one process ends in the null pointer. -/
theorem RingInv.chain_of_one (h : RingInv s ps) (hone : ps.length ≤ 1) :
    Chain (fun t => (s.nodes t).next) s.firstTask ps 0 := by
  cases ps with
  | nil => exact (h.empty rfl).1
  | cons p qs =>
    have hchain := h.chain (List.cons_ne_nil p qs)
    rwa [if_neg (by omega)] at hchain

/-- **A ring is searched forever**: from two processes on no round comes to the end of the list. -/
theorem RingInv.findProcess_stuck (h : RingInv s ps) (hring : 2 ≤ ps.length)
    (habsent : ∀ p ∈ ps, (s.tasks (s.nodes p).task).id ≠ id) (rounds : ℕ) :
    findProcess rounds s id = none := by
  have hne : ps ≠ [] := by
    rintro rfl
    simp at hring
  have hwalk : Kernel.findNode rounds s id = none := by
    apply walk_eq_none (· ∈ ps)
    · obtain ⟨p, qs, rfl⟩ := List.exists_cons_of_ne_nil hne
      rw [h.first_eq]
      exact List.mem_cons_self ..
    · intro p hp
      have hsucc := h.succNode_mem hp
      have hnext : (s.nodes p).next ≠ 0 := h.next_ne hring hp
      rwa [succNode, if_neg hnext] at hsucc
    · intro p hp
      simp [h.nonnull hp, habsent p hp]
  rw [findProcess, hwalk]
  rfl

/-- **Search in a state**: it ends with the right answer if a process has the identifier or the list is
no ring, and never otherwise. -/
theorem SpawnInv.finds_iff (h : SpawnInv b ps) :
    b.Finds id ↔ ps.length ≤ 1 ∨ ∃ p ∈ ps, (b.kernel.tasks (b.kernel.nodes p).task).id = id := by
  by_cases hid : ∃ p ∈ ps, (b.kernel.tasks (b.kernel.nodes p).task).id = id
  · -- a process has the identifier
    refine iff_of_true ?_ (.inr hid)
    obtain ⟨p, hp, hid⟩ := hid
    obtain ⟨t, ht, hwalk, htid⟩ := h.toRingInv.findNode le_rfl hp
    rw [hid] at hwalk htid
    refine ⟨ps.length, (b.kernel.nodes t).task, ?_, .inl ⟨?_, htid⟩⟩
    · rw [findProcess, hwalk, Option.map_some, if_neg (h.nonnull ht)]
    · rw [h.tasks]
      exact List.mem_map_of_mem ht
  · have habsent : ∀ p ∈ ps, (b.kernel.tasks (b.kernel.nodes p).task).id ≠ id :=
      fun p hp heq => hid ⟨p, hp, heq⟩
    rw [or_iff_left hid]
    constructor
    · rintro ⟨rounds, t, hfind, -⟩
      by_contra hring
      rw [h.toRingInv.findProcess_stuck (by omega) habsent] at hfind
      exact absurd hfind (by simp)
    · intro hone
      have hwalk : Kernel.findNode ps.length b.kernel id = some 0 := by
        apply walk_of_chain (h.chain_of_one hone)
        · simp
        · intro p hp
          simp [h.nonnull hp, habsent p hp]
        · exact le_rfl
      refine ⟨ps.length, 0, ?_, .inr ⟨rfl, ?_⟩⟩
      · rw [findProcess, hwalk]
        rfl
      · intro u hu
        rw [h.tasks] at hu
        obtain ⟨p, hp, rfl⟩ := List.mem_map.mp hu
        exact habsent p hp

/-! ## Whole runs -/

/-- **The search for a process** after a run ends with the right answer exactly if at most one process was
created, or one with the identifier. -/
theorem find_process_iff (hstart : Start s) {calls : List TaskCall}
    (hret : Along (Spawned.step P fuel resumeUser) (fun b c => c.Returns P fuel resumeUser b.kernel)
      ⟨s, []⟩ calls) (id : ℕ) :
    (run (Spawned.step P fuel resumeUser) ⟨s, []⟩ calls).Finds id ↔
      calls.countP TaskCall.creates ≤ 1 ∨
        ∃ i < calls.countP TaskCall.creates, pidValue (BitVec.ofNat 32 (i + 1)) = id := by
  obtain ⟨ps, hinv, hlen⟩ := (SpawnInv.start hstart).run hret
  rw [List.length_nil, Nat.zero_add] at hlen
  rw [hinv.finds_iff, hinv.toRingInv.exists_id_iff, hlen]

/-- Three processes, and the identifier of the second. -/
theorem find_process_boot :
    (run (Spawned.step Mmu.bootPlatform 8 0xFFFFFFFF80001000) ⟨bootKernel, []⟩
      [.initializeProcess 0x1000 1, .switchProcess 0, .cloneProcess 0x2000 0x7000,
        .initializeProcess 0x3000 0]).Finds 2 := by
  have hret : Along (Spawned.step Mmu.bootPlatform 8 0xFFFFFFFF80001000)
      (fun b c => c.Returns Mmu.bootPlatform 8 0xFFFFFFFF80001000 b.kernel) ⟨bootKernel, []⟩
      [.initializeProcess 0x1000 1, .switchProcess 0, .cloneProcess 0x2000 0x7000,
        .initializeProcess 0x3000 0] := by decide
  exact (find_process_iff bootKernel_start hret 2).mpr (.inr ⟨1, by decide, by decide⟩)

/-- With two processes the search for the identifier 3 goes on forever. -/
theorem absent_process_not_found :
    Start bootKernel ∧
    Along (Spawned.step Mmu.bootPlatform 8 0xFFFFFFFF80001000)
      (fun b c => c.Returns Mmu.bootPlatform 8 0xFFFFFFFF80001000 b.kernel) ⟨bootKernel, []⟩
      [.initializeProcess 0x1000 1, .initializeProcess 0x2000 1] ∧
    ∀ rounds, findProcess rounds (run (Spawned.step Mmu.bootPlatform 8 0xFFFFFFFF80001000)
      ⟨bootKernel, []⟩ [.initializeProcess 0x1000 1, .initializeProcess 0x2000 1]).kernel 3 = none := by
  have hret : Along (Spawned.step Mmu.bootPlatform 8 0xFFFFFFFF80001000)
      (fun b c => c.Returns Mmu.bootPlatform 8 0xFFFFFFFF80001000 b.kernel) ⟨bootKernel, []⟩
      [.initializeProcess 0x1000 1, .initializeProcess 0x2000 1] := by decide
  refine ⟨bootKernel_start, hret, ?_⟩
  obtain ⟨ps, hinv, hlen⟩ := (SpawnInv.start bootKernel_start).run hret
  have htwo : ps.length = 2 := hlen
  apply hinv.toRingInv.findProcess_stuck (le_of_eq htwo.symm)
  intro p hp hid
  obtain ⟨i, hi, heq⟩ := hinv.toRingInv.exists_id_iff.mp ⟨p, hp, hid⟩
  rw [htwo] at hi
  have hthree : ∀ i < 2, pidValue (BitVec.ofNat 32 (i + 1)) ≠ 3 := by decide
  exact hthree i hi heq

end Cutesugar.Kernel
