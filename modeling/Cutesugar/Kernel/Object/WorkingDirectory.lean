import Cutesugar.Kernel.Object.Confinement
import Cutesugar.Kernel.Object.Passage

/-!
# Working directories

A process starts in what `ObjGetRootObject` returns to whoever creates it, and changes to whatever
object a name resolves to. So a process that an unprivileged one creates has no working directory,
and a process can change to an object that is no directory.

## Structure

- `CwdCall`: creations, switches and changes of directory, and their runs.
- `Creation`: the working directory of a new process.
- `CwdInv`: the ring with its working directories.
- `cwdsDirectories_iff`: the runs that keep every working directory a directory.
-/

namespace Cutesugar.Kernel

open Lib Libc

variable {P : Mmu.Platform} {fuel depth resumeUser : ℕ} {s s' : State} {ps : List ℕ}
  {rights : List Bool} {c : TaskCall} {root : ℕ} {name : Option (List UInt8)}

/-! ## Runs -/

inductive CwdCall where
  | task (c : TaskCall)
  | changeDirectory (root : ℕ) (name : Option (List UInt8))

/-- The state after a call that returns. -/
def CwdCall.result (P : Mmu.Platform) (fuel depth resumeUser : ℕ) (s : State) :
    CwdCall → Option State
  | .task c => c.result P fuel resumeUser s
  | .changeDirectory root name =>
    (changeWorkingDirectory fuel depth s root name).toOption.map Prod.snd

def CwdCall.step (P : Mmu.Platform) (fuel depth resumeUser : ℕ) (s : State) (e : CwdCall) : State :=
  (e.result P fuel depth resumeUser s).getD s

/-- The call returns. -/
def CwdCall.Returns (P : Mmu.Platform) (fuel depth resumeUser : ℕ) (s : State) (e : CwdCall) :
    Prop :=
  (e.result P fuel depth resumeUser s).isSome

instance (P : Mmu.Platform) (fuel depth resumeUser : ℕ) (s : State) (e : CwdCall) :
    Decidable (e.Returns P fuel depth resumeUser s) :=
  inferInstanceAs (Decidable (_ = true))

/-- A node of the task list. -/
def Listed (s : State) (p : ℕ) : Prop :=
  p ≠ 0 ∧ ∃ nodes, Chain (fun t => (s.nodes t).next) s.firstTask nodes p ∧ ∀ x ∈ nodes, x ≠ 0

/-- The working directory of the task of a node. -/
def State.cwd (s : State) (p : ℕ) : ℕ := (s.tasks (s.nodes p).task).cwd

/-- The object is a directory. -/
def IsDirectory (s : State) (o : ℕ) : Prop := o ≠ 0 ∧ (s.objects o).header.type = 1

instance (s : State) (o : ℕ) : Decidable (IsDirectory s o) := inferInstanceAs (Decidable (_ ∧ _))

/-- The working directory of every task is a directory. -/
def CwdsDirectories (s : State) : Prop := ∀ p, Listed s p → IsDirectory s (s.cwd p)

/-- Only privileged processes create others, and a name that a process changes to comes to nothing but
directories. -/
def CwdCall.KeepsCwds (fuel : ℕ) (s : State) : CwdCall → Prop
  | .task c => c.creates → kernelCheckToken fuel s 1 = some 1
  | .changeDirectory root name =>
    ∀ text ∈ name, ∀ o, Passes fuel s (s.origin root) (cString text) o → (s.objects o).header.type = 1

/-! ## The task list -/

/-- The nodes of the task list are those of the ring. -/
theorem RingInv.listed_iff (h : RingInv s ps) {p : ℕ} : Listed s p ↔ p ∈ ps := by
  constructor
  · rintro ⟨hp, nodes, hchain, hnodes⟩
    -- a chain that starts in the ring stays in it
    have hstay : ∀ (nodes : List ℕ) (a : ℕ), (a ∈ ps ∨ a = 0) →
        Chain (fun t => (s.nodes t).next) a nodes p → (∀ x ∈ nodes, x ≠ 0) → p ∈ ps := by
      intro nodes
      induction nodes with
      | nil =>
        intro a ha hchain _
        obtain rfl : a = p := hchain
        exact ha.resolve_right hp
      | cons x nodes ih =>
        intro a ha hchain hne
        obtain ⟨rfl, hrest⟩ := hchain
        have hx : a ∈ ps := ha.resolve_right (hne a (List.mem_cons_self ..))
        refine ih _ ?_ hrest fun y hy => hne y (List.mem_cons_of_mem _ hy)
        have hsucc := h.succNode_mem hx
        rw [succNode] at hsucc
        split_ifs at hsucc with hnext
        · exact .inr hnext
        · exact .inl hsucc
    refine hstay nodes s.firstTask ?_ hchain hnodes
    cases ps with
    | nil => exact .inr (h.empty rfl).1
    | cons q qs => exact .inl (h.first_eq ▸ List.mem_cons_self ..)
  · intro hp
    obtain ⟨xs, ys, rfl⟩ := List.append_of_mem hp
    obtain ⟨b, hchain, hb, -⟩ := chain_append.mp (h.chain (List.ne_nil_of_mem hp))
    obtain rfl : b = p := hb
    refine ⟨h.nonnull hp, xs, hchain, fun x hx => h.nonnull (List.mem_append_left _ hx)⟩

/-! ## The working directory of a new process -/

/-- What a creation does to the records a working directory is read from; `s₁` is the state in
which the root object is asked for. -/
structure Creation (fuel : ℕ) (s s₁ s' : State) (t : Task) : Prop where
  task : s'.tasks = Function.update s.tasks (s.blocks (s.mallocs + 1)) t
  cwd : objGetRootObject fuel s₁ = some t.cwd
  current : s₁.currentTask = s.currentTask
  root : s₁.rootObject = s.rootObject
  nodes : s.firstTask ≠ 0 → s₁.nodes = s.nodes
  tasks : s.firstTask ≠ 0 → s₁.tasks = s.tasks
  first : s.firstTask ≠ 0 → s₁.firstTask = s.firstTask
  tokens : ∀ p, p ≠ s.blocks (s.mallocs + 3) →
    (s₁.tokens p).canAccessRoot = (s.tokens p).canAccessRoot
  objects : s'.objects = s.objects
  rootObject : s'.rootObject = s.rootObject

theorem initializeFirst_creation {rip permissions : ℕ} (hfirst : s.firstTask = 0)
    (h : kernelInitializeProcess P fuel s rip permissions = some s') :
    ∃ s₁ t, Creation fuel s s₁ s' t := by
  obtain ⟨td, s₁, cwd, htoken, hcwd, rfl⟩ := kernelInitializeProcess_first hfirst h
  obtain ⟨rfl, tokens, tokDict, rfl, -, hrest⟩ := kernelGetTokenForProcess_spec htoken
  exact ⟨_, _, rfl, hcwd, rfl, rfl, fun hne => absurd hfirst hne, fun hne => absurd hfirst hne,
    fun hne => absurd hfirst hne, hrest, rfl, rfl⟩

theorem initializeNext_creation {rip permissions : ℕ} (hfirst : s.firstTask ≠ 0)
    (h : kernelInitializeProcess P fuel s rip permissions = some s') :
    ∃ s₁ t, Creation fuel s s₁ s' t := by
  obtain ⟨last, td, s₁, cwd, -, htoken, hcwd, rfl⟩ := kernelInitializeProcess_next hfirst h
  obtain ⟨rfl, tokens, tokDict, rfl, -, hrest⟩ := kernelGetTokenForProcess_spec htoken
  exact ⟨_, _, rfl, hcwd, rfl, rfl, fun _ => rfl, fun _ => rfl, fun _ => rfl, hrest, rfl, rfl⟩

theorem kernelCloneProcess_creation {rip ursp id : ℕ}
    (h : kernelCloneProcess P fuel resumeUser s rip ursp = some (id, s')) :
    ∃ s₁ t, Creation fuel s s₁ s' t := by
  obtain ⟨-, -, last, td, s₁, cwd, -, htoken, hcwd, rfl⟩ := kernelCloneProcess_some h
  obtain ⟨rfl, tokens, tokDict, rfl, -, hrest⟩ := kernelGetTokenForProcess_spec htoken
  exact ⟨_, _, rfl, hcwd, rfl, rfl, fun _ => rfl, fun _ => rfl, fun _ => rfl, hrest, rfl, rfl⟩

theorem TaskCall.creation (hc : c.creates) (hret : c.Returns P fuel resumeUser s) :
    ∃ s₁ t, Creation fuel s s₁ (c.step P fuel resumeUser s) t := by
  obtain ⟨s', hresult⟩ := Option.isSome_iff_exists.mp hret
  have hstep : c.step P fuel resumeUser s = s' := by rw [TaskCall.step, hresult]; rfl
  rw [hstep]
  cases c with
  | initializeProcess rip permissions =>
    by_cases hfirst : s.firstTask = 0
    · exact initializeFirst_creation hfirst hresult
    · exact initializeNext_creation hfirst hresult
  | cloneProcess rip ursp =>
    obtain ⟨⟨id, s₁⟩, hclone, rfl⟩ := Option.map_eq_some_iff.mp hresult
    exact kernelCloneProcess_creation hclone
  | switchProcess rsp => exact absurd hc (by simp [TaskCall.creates])

/-! ## The permission at a creation -/

/-- **Who asks**: in the middle of a creation the check of the permission still looks at the
process that was current before. -/
theorem RightsInv.check_creation (h : RightsInv s ps rights) {s₁ : State} {t : Task}
    (hcreate : Creation fuel s s₁ s' t) :
    ∃ v, Kernel.kernelCheckToken fuel s 1 = some v ∧ (v = 1 ∧ t.cwd = s.rootObject ∨ v ≠ 1 ∧ t.cwd = 0) := by
  obtain ⟨v, hv, hcwd⟩ := Option.map_eq_some_iff.mp hcreate.cwd
  rw [hcreate.root] at hcwd
  -- without a current process the kernel itself asks
  by_cases hcurrent : s.currentTask = 0
  · have hgranted : ∀ s₂ : State, s₂.currentTask = 0 → Kernel.kernelCheckToken fuel s₂ 1 = some 1 := by
      intro s₂ hs₂
      simp only [Kernel.kernelCheckToken, getCurrentProcessId, if_pos hs₂, if_true]
    rw [hgranted s₁ (hcreate.current.trans hcurrent)] at hv
    obtain rfl := Option.some.inj hv
    exact ⟨1, hgranted s hcurrent, .inl ⟨rfl, hcwd.symm⟩⟩
  have hfirst : s.firstTask ≠ 0 := by
    cases ps with
    | nil => exact absurd (h.empty rfl).2 hcurrent
    | cons p qs => exact h.first_eq ▸ h.nonnull (List.mem_cons_self ..)
  have hmem : s.currentTask ∈ ps := h.current fun hnil => hcurrent (h.empty hnil).2
  have hid : getCurrentProcessId s₁ = getCurrentProcessId s := by
    simp only [getCurrentProcessId, hcreate.current, hcreate.nodes hfirst, hcreate.tasks hfirst]
  have hfind : findProcess fuel s₁ (getCurrentProcessId s) =
      findProcess fuel s (getCurrentProcessId s) := by
    simp only [findProcess, findNode, hcreate.nodes hfirst, hcreate.tasks hfirst,
      hcreate.first hfirst]
  simp only [Kernel.kernelCheckToken, hid, hfind] at hv ⊢
  by_cases hzero : getCurrentProcessId s = 0
  · rw [if_pos hzero] at hv ⊢
    obtain rfl := Option.some.inj hv
    exact ⟨1, rfl, .inl ⟨rfl, hcwd.symm⟩⟩
  rw [if_neg hzero] at hv ⊢
  obtain ⟨task, htask, hv⟩ := Option.bind_eq_some_iff.mp hv
  -- the token that is read belongs to a process of the ring, so it is not the new one
  have hold : (s.tasks task).token ≠ s.blocks (s.mallocs + 3) := by
    obtain ⟨node, hnode, hnodetask⟩ := Option.map_eq_some_iff.mp htask
    obtain ⟨q, hq, hsearch, -⟩ := h.findNode (le_max_right fuel ps.length) hmem
    rw [getCurrentProcessId, if_neg hcurrent] at hnode
    have hmono := walk_mono hnode (le_max_left fuel ps.length)
    obtain rfl : node = q := Option.some.inj (hmono.symm.trans hsearch)
    rw [if_neg (h.nonnull hq)] at hnodetask
    obtain ⟨i, hi, htoken⟩ := h.token node hq
    rw [← hnodetask, htoken]
    intro heq
    have := h.blocks.injective heq
    omega
  rw [hcreate.tasks hfirst, hcreate.tokens _ hold] at hv
  simp only [htask, Option.bind_eq_bind, Option.bind_some]
  refine ⟨v, hv, ?_⟩
  split_ifs at hv with hnull hgranted
  · obtain rfl := Option.some.inj hv
    exact .inl ⟨rfl, hcwd.symm⟩
  · obtain rfl := Option.some.inj hv
    exact .inr ⟨by decide, hcwd.symm⟩

/-! ## The invariant -/

/-- The ring with its working directories, and the root object for new ones. -/
structure CwdInv (s : State) (ps : List ℕ) (rights : List Bool) : Prop
    extends RightsInv s ps rights where
  root : IsDirectory s s.rootObject
  cwds : ∀ p ∈ ps, IsDirectory s (s.cwd p)

theorem CwdInv.start (h : Start s) (hroot : IsDirectory s s.rootObject) : CwdInv s [] [] where
  toRightsInv := RightsInv.start h
  root := hroot
  cwds _ hp := absurd hp List.not_mem_nil

theorem CwdInv.cwdsDirectories (h : CwdInv s ps rights) : CwdsDirectories s :=
  fun p hp => h.cwds p (h.listed_iff.mp hp)

/-- **A creation** changes no older working directory, and the new one is the root object or
null. -/
theorem CwdInv.created (h : CwdInv s ps rights) (hc : c.creates)
    (hret : c.Returns P fuel resumeUser s) :
    (c.step P fuel resumeUser s).objects = s.objects ∧
      (c.step P fuel resumeUser s).rootObject = s.rootObject ∧
      (∀ p ∈ ps, (c.step P fuel resumeUser s).cwd p = s.cwd p) ∧
      (c.step P fuel resumeUser s).cwd (s.blocks s.mallocs) =
        if kernelCheckToken fuel s 1 = some 1 then s.rootObject else 0 := by
  obtain ⟨s₁, t, hcreate⟩ := TaskCall.creation hc hret
  obtain ⟨permissions, ha, -⟩ := TaskCall.allocated hc hret
  refine ⟨hcreate.objects, hcreate.rootObject, fun p hp => ?_, ?_⟩
  · rw [State.cwd, State.cwd, ha.oldNode p (h.node_ne hp le_rfl), hcreate.task,
      Function.update_of_ne (h.task_ne hp (Nat.le_succ _))]
  · rw [State.cwd, ha.newNode, hcreate.task, Function.update_self]
    obtain ⟨v, hv, ⟨rfl, hcwd⟩ | ⟨hne, hcwd⟩⟩ := h.check_creation hcreate
    · rw [hv, if_pos rfl, hcwd]
    · rw [hv, if_neg fun heq => hne (Option.some.inj heq), hcwd]

/-- A switch changes no working directory. -/
theorem cwd_switch (s : State) (rsp p : ℕ) :
    (kernelSwitchProcess s rsp).cwd p = s.cwd p ∧
      (kernelSwitchProcess s rsp).objects = s.objects ∧
      (kernelSwitchProcess s rsp).rootObject = s.rootObject := by
  rw [kernelSwitchProcess]
  split_ifs with hcurrent hnext
  · exact ⟨rfl, rfl, rfl⟩
  · exact ⟨rfl, rfl, rfl⟩
  · refine ⟨?_, rfl, rfl⟩
    simp only [State.cwd]
    rcases eq_or_ne (s.nodes p).task (s.nodes s.currentTask).task with heq | hne
    · rw [heq, Function.update_self]
    · rw [Function.update_of_ne hne]

/-- A new working directory of the current process keeps the ring. -/
theorem RightsInv.setCwd (h : RightsInv s ps rights) (dir : ℕ) :
    RightsInv (s.setTask (getCurrentProcess s)
      { s.tasks (getCurrentProcess s) with cwd := dir }) ps rights := by
  have htask := setCwd_tasks s (getCurrentProcess s) dir
  refine { nodup := h.nodup, chain := h.chain, current := h.current, ids := ?_,
           blocks := ⟨h.blocks.nonnull, h.blocks.injective⟩, pid := h.pid, empty := h.empty, node := h.node, task := h.task, zero := h.zero,
           token := fun p hp => ?_, rights := ?_ }
  · rw [← h.ids]
    exact List.map_congr_left fun p _ => (htask (s.nodes p).task).1
  · obtain ⟨i, hi, heq⟩ := h.token p hp
    exact ⟨i, hi, (htask (s.nodes p).task).2.trans heq⟩
  · rw [← h.rights]
    refine List.map_congr_left fun p _ => ?_
    exact congrArg (fun token => (s.tokens token).canAccessRoot) (htask (s.nodes p).task).2

/-- The names that a resolution which returns takes to a directory or nowhere. -/
theorem keepsCwds_iff {dir : ℕ} (h : resolveObjectName fuel s depth root name = .ok dir) :
    CwdCall.KeepsCwds fuel s (.changeDirectory root name) ↔ (dir ≠ 0 → (s.objects dir).header.type = 1) := by
  cases name with
  | none =>
    rw [resolveObjectName] at h
    obtain rfl := Except.ok.inj h
    exact iff_of_true (fun text htext => absurd htext (Option.not_mem_none text)) fun hne => absurd rfl hne
  | some text =>
    rw [directory_iff_passes h]
    constructor
    · exact fun hkeeps => hkeeps text rfl
    · rintro hall text' ⟨⟩
      exact hall

/-- What a change of directory that returns does. -/
theorem changeDirectory_result
    (h : CwdCall.result P fuel depth resumeUser s (.changeDirectory root name) = some s') :
    ∃ dir, resolveObjectName fuel s depth root name = .ok dir ∧
      (dir = 0 ∧ s' = s ∨ dir ≠ 0 ∧ getCurrentProcess s ≠ 0 ∧
        s' = s.setTask (getCurrentProcess s)
          { s.tasks (getCurrentProcess s) with cwd := dir }) := by
  simp only [CwdCall.result, changeWorkingDirectory] at h
  cases hname : resolveObjectName fuel s depth root name with
  | error e => simp [hname, bind, Except.bind, Except.toOption] at h
  | ok dir =>
    refine ⟨dir, rfl, ?_⟩
    simp only [hname, bind, Except.bind] at h
    split_ifs at h with hdir hprocess
    · exact .inl ⟨hdir, (Option.some.inj h).symm⟩
    · exact absurd h (by simp [Except.toOption])
    · exact .inr ⟨hdir, hprocess, (Option.some.inj h).symm⟩

/-- The current process is one of the ring. -/
theorem RingInv.currentProcess (h : RingInv s ps) (hprocess : getCurrentProcess s ≠ 0) :
    s.currentTask ∈ ps ∧ getCurrentProcess s = (s.nodes s.currentTask).task := by
  rw [getCurrentProcess] at hprocess ⊢
  split_ifs at hprocess ⊢ with hcurrent
  · exact absurd rfl hprocess
  · exact ⟨h.current fun hnil => hcurrent (h.empty hnil).2, rfl⟩

/-- The working directory of every task after a change of directory. -/
theorem cwd_setCwd (s : State) (q dir p : ℕ) :
    (s.setTask q { s.tasks q with cwd := dir }).cwd p =
      if (s.nodes p).task = q then dir else s.cwd p := by
  simp only [State.cwd]
  split_ifs with hq
  · rw [hq, Function.update_self]
  · rw [Function.update_of_ne hq]

/-- **Step lemma.** -/
theorem CwdInv.step (h : CwdInv s ps rights) {e : CwdCall}
    (hret : e.Returns P fuel depth resumeUser s) (hkeeps : e.KeepsCwds fuel s) :
    ∃ qs more, CwdInv (e.step P fuel depth resumeUser s) qs more := by
  cases e with
  | task c =>
    have hreturns : c.Returns P fuel resumeUser s := hret
    change ∃ qs more, CwdInv (c.step P fuel resumeUser s) qs more
    refine ⟨_, _, { toRightsInv := h.toRightsInv.step hreturns, root := ?_, cwds := ?_ }⟩
    · by_cases hc : c.creates
      · obtain ⟨hobjects, hroot, -⟩ := h.created hc hret
        rw [IsDirectory, hobjects, hroot]
        exact h.root
      · cases c with
        | initializeProcess rip permissions => exact absurd rfl hc
        | cloneProcess rip ursp => exact absurd rfl hc
        | switchProcess rsp =>
          obtain ⟨-, hobjects, hroot⟩ := cwd_switch s rsp 0
          change IsDirectory (kernelSwitchProcess s rsp) (kernelSwitchProcess s rsp).rootObject
          rw [IsDirectory, hobjects, hroot]
          exact h.root
    · by_cases hc : c.creates
      · -- the new process gets the root object if the check lets it
        obtain ⟨hobjects, -, hold, hnew⟩ := h.created hc hret
        rw [if_pos hc]
        intro p hp
        rw [IsDirectory, hobjects]
        rcases List.mem_append.mp hp with hp | hp
        · rw [hold p hp]
          exact h.cwds p hp
        · rw [List.mem_singleton.mp hp, hnew, if_pos (hkeeps hc)]
          exact h.root
      · rw [if_neg hc]
        cases c with
        | initializeProcess rip permissions => exact absurd rfl hc
        | cloneProcess rip ursp => exact absurd rfl hc
        | switchProcess rsp =>
          intro p hp
          obtain ⟨hcwd, hobjects, -⟩ := cwd_switch s rsp p
          change IsDirectory (kernelSwitchProcess s rsp) ((kernelSwitchProcess s rsp).cwd p)
          rw [IsDirectory, hobjects, hcwd]
          exact h.cwds p hp
  | changeDirectory root name =>
    obtain ⟨s', hresult⟩ := Option.isSome_iff_exists.mp hret
    rw [CwdCall.step, hresult, Option.getD_some]
    obtain ⟨dir, hname, ⟨-, rfl⟩ | ⟨hdir, hprocess, rfl⟩⟩ := changeDirectory_result hresult
    · -- the name leads nowhere, or no process is current
      exact ⟨ps, rights, h⟩
    · -- the step does not ask for the type, so the guard has to
      have htype : (s.objects dir).header.type = 1 := (keepsCwds_iff hname).mp hkeeps hdir
      refine ⟨ps, rights, { toRightsInv := h.toRightsInv.setCwd dir, root := h.root,
                            cwds := fun p hp => ?_ }⟩
      rw [cwd_setCwd]
      split_ifs
      · exact ⟨hdir, htype⟩
      · exact h.cwds p hp

/-- **What goes wrong**: any other call leaves a task without a working directory, or with one
that is no directory. -/
theorem CwdInv.breaks (h : CwdInv s ps rights) {e : CwdCall}
    (hret : e.Returns P fuel depth resumeUser s) (hnot : ¬ e.KeepsCwds fuel s) :
    ¬ CwdsDirectories (e.step P fuel depth resumeUser s) := by
  cases e with
  | task c =>
    obtain ⟨hc, hdenied⟩ := Classical.not_imp.mp hnot
    obtain ⟨-, -, -, hnew⟩ := h.created hc hret
    rw [if_neg hdenied] at hnew
    have hring := (h.toRingInv.step hret).1
    rw [if_pos hc] at hring
    intro hall
    refine (hall (s.blocks s.mallocs) (hring.listed_iff.mpr ?_)).1 hnew
    exact List.mem_append_right _ (List.mem_singleton_self _)
  | changeDirectory root name =>
    obtain ⟨s', hresult⟩ := Option.isSome_iff_exists.mp hret
    rw [CwdCall.step, hresult, Option.getD_some]
    obtain ⟨dir, hname, hrest⟩ := changeDirectory_result hresult
    have hdir : dir ≠ 0 ∧ (s.objects dir).header.type ≠ 1 := by
      rw [keepsCwds_iff hname] at hnot
      exact Classical.not_imp.mp hnot
    obtain ⟨hzero, -⟩ | ⟨-, hprocess, rfl⟩ := hrest
    · exact absurd hzero hdir.1
    · obtain ⟨hmem, hcurrent⟩ := h.currentProcess hprocess
      intro hall
      have hbad := hall s.currentTask ((h.toRightsInv.setCwd dir).listed_iff.mpr hmem)
      rw [cwd_setCwd, if_pos hcurrent.symm] at hbad
      exact hdir.2 hbad.2

/-- A change of directory that fails leaves the state as it is. -/
theorem changeWorkingDirectory_failed {v : ℤ}
    (h : changeWorkingDirectory fuel depth s root name = .ok (v, s')) (hv : v ≠ 0) : s' = s := by
  rw [changeWorkingDirectory] at h
  obtain ⟨dir, -, h⟩ := bind_eq_ok.mp h
  split_ifs at h with hdir hprocess
  · exact (Prod.mk.inj (Except.ok.inj h)).2.symm
  · exact absurd (Prod.mk.inj (Except.ok.inj h)).1.symm hv

/-- **Working directories**: in a run of creations, switches and changes of directory that return, in which only
privileged processes create others and the names come to nothing but directories, every task has a directory as its
working directory. As long as the calls return, they have in such runs only; and a failed change of directory changes
nothing. -/
theorem cwdsDirectories_iff (hstart : Start s) (hroot : IsDirectory s s.rootObject) (calls : List CwdCall) :
    (∀ (s₁ s₂ : State) (root : ℕ) (name : Option (List UInt8)) (v : ℤ),
      changeWorkingDirectory fuel depth s₁ root name = .ok (v, s₂) → v ≠ 0 → s₂ = s₁) ∧
    (Along (CwdCall.step P fuel depth resumeUser)
        (fun s e => e.Returns P fuel depth resumeUser s ∧ e.KeepsCwds fuel s) s calls →
      Everywhere (CwdCall.step P fuel depth resumeUser) CwdsDirectories s calls) ∧
    (Along (CwdCall.step P fuel depth resumeUser) (fun s e => e.Returns P fuel depth resumeUser s) s calls →
      (Everywhere (CwdCall.step P fuel depth resumeUser) CwdsDirectories s calls ↔
        Along (CwdCall.step P fuel depth resumeUser) (fun s e => e.KeepsCwds fuel s) s calls)) := by
  have himp : ∀ s, (∃ ps rights, CwdInv s ps rights) → CwdsDirectories s := by
    rintro s ⟨ps, rights, h⟩
    exact h.cwdsDirectories
  have hexact (hret : Along (CwdCall.step P fuel depth resumeUser)
      (fun s e => e.Returns P fuel depth resumeUser s) s calls) :
      Everywhere (CwdCall.step P fuel depth resumeUser) CwdsDirectories s calls ↔
        Along (CwdCall.step P fuel depth resumeUser) (fun s e => e.KeepsCwds fuel s) s calls := by
    refine everywhere_iff_along hret ?_ ?_ himp ?_
    · exact ⟨[], [], CwdInv.start hstart hroot⟩
    · rintro s e ⟨ps, rights, h⟩ hreturns hkeeps
      exact h.step hreturns hkeeps
    · rintro s e ⟨ps, rights, h⟩ hreturns hnot
      exact h.breaks hreturns hnot
  refine ⟨fun s₁ s₂ root name v h hv => changeWorkingDirectory_failed h hv, fun hcond => ?_, hexact⟩
  obtain ⟨hret, hkeeps⟩ := along_and.mp hcond
  exact (hexact hret).mpr hkeeps

theorem bootDirectories_start : Start bootDirectories where
  blocks := ⟨bootKernel_start.blocks.nonnull, bootKernel_start.blocks.injective⟩
  first := rfl
  current := rfl
  pid := rfl
  zero _ _ := rfl

/-- A privileged process creates another, and changes to the directory `./a`; there is no `x` in it. -/
theorem cwdsDirectories_boot :
    Everywhere (CwdCall.step Mmu.bootPlatform 8 8 0xFFFFFFFF80001000) CwdsDirectories
      bootDirectories
      [.task (.initializeProcess 0x2000 1), .changeDirectory 0 (some [46, 47, 97, 0]),
        .task (.cloneProcess 0x3000 0x7000), .task (.switchProcess 0),
        .changeDirectory 0 (some [120, 0])] := by
  refine (cwdsDirectories_iff bootDirectories_start (by decide) _).2.1 (along_and.mpr ⟨by decide +kernel, ?_⟩)
  have ha : resolveObjectName 8 (CwdCall.step Mmu.bootPlatform 8 8 0xFFFFFFFF80001000 bootDirectories
      (.task (.initializeProcess 0x2000 1))) 8 0 (some [46, 47, 97, 0]) = .ok 0x1200 := by decide +kernel
  refine ⟨?_, (keepsCwds_iff ha).mpr ?_, ?_, ?_, ?_, trivial⟩
  · intro _
    decide
  · decide +kernel
  · intro _
    decide +kernel
  · exact fun hc => absurd hc (by decide)
  · exact (keepsCwds_iff (show resolveObjectName 8 _ 8 0 (some [120, 0]) = .ok 0 by decide +kernel)).mpr
      fun hne => absurd rfl hne

/-- A process changes to the file `./f`, and an unprivileged process creates another, which has no
working directory. -/
theorem cwd_no_directory :
    (Along (CwdCall.step Mmu.bootPlatform 8 8 0xFFFFFFFF80001000)
      (fun s e => e.Returns Mmu.bootPlatform 8 8 0xFFFFFFFF80001000 s) bootDirectories
      [.task (.initializeProcess 0x2000 1), .changeDirectory 0 (some [46, 47, 102, 0])] ∧
    ¬ Everywhere (CwdCall.step Mmu.bootPlatform 8 8 0xFFFFFFFF80001000) CwdsDirectories
      bootDirectories
      [.task (.initializeProcess 0x2000 1), .changeDirectory 0 (some [46, 47, 102, 0])]) ∧
    (Along (CwdCall.step Mmu.bootPlatform 8 8 0xFFFFFFFF80001000)
      (fun s e => e.Returns Mmu.bootPlatform 8 8 0xFFFFFFFF80001000 s) bootDirectories
      [.task (.initializeProcess 0x2000 0), .task (.initializeProcess 0x3000 1)] ∧
    ¬ Everywhere (CwdCall.step Mmu.bootPlatform 8 8 0xFFFFFFFF80001000) CwdsDirectories
      bootDirectories
      [.task (.initializeProcess 0x2000 0), .task (.initializeProcess 0x3000 1)]) := by
  refine ⟨⟨by decide +kernel, fun hall => ?_⟩, by decide +kernel, fun hall => ?_⟩
  · -- the only process is in the file
    have hlast := hall.last 0x200000 ⟨by decide, [], show _ = 0x200000 by decide +kernel, by simp⟩
    exact absurd hlast (by decide +kernel)
  · -- the second process is behind the first
    have hlast := hall.last 0x240000 ⟨by decide, [0x200000],
      show _ = 0x200000 ∧ _ = 0x240000 by decide, by simp⟩
    exact absurd hlast (by decide)

end Cutesugar.Kernel
