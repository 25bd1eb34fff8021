import Cutesugar.Kernel.Arch.Task

/-!
# What the creation of a process does

One lemma for each function that creates a process, in terms of the records it writes. Both
ways to create a later process do the same to the task list (`Created`); they differ in the
permission of the token.
-/

namespace Cutesugar.Kernel

open Lib Lib.Memory

variable {P : Mmu.Platform} {fuel : ℕ} {s s' : State}

/-! ## Parts -/

/-- A new token is the next block; the permissions of the other tokens stay. -/
theorem kernelGetTokenForProcess_spec {id td : ℕ} {permissions : UInt8}
    (h : kernelGetTokenForProcess fuel s id permissions = some (td, s')) :
    td = s.blocks s.mallocs ∧ ∃ tokens tokDict,
      s' = { s with mallocs := s.mallocs + 1, tokens := tokens, tokDict := tokDict } ∧
      (tokens td).canAccessRoot = permissions &&& 1 ∧
      ∀ p, p ≠ td → (tokens p).canAccessRoot = (s.tokens p).canAccessRoot := by
  simp only [kernelGetTokenForProcess, State.setToken] at h
  generalize s.blocks s.mallocs = newTd at h ⊢
  by_cases hdict : s.tokDict = 0
  · rw [if_pos hdict] at h
    obtain ⟨rfl, rfl⟩ : newTd = td ∧ _ = s' := by simpa using h
    refine ⟨rfl, _, _, rfl, ?_, fun p hp => ?_⟩
    · rw [Function.update_self]
    · rw [Function.update_of_ne hp]
  · rw [if_neg hdict] at h
    obtain ⟨last, -, h⟩ := Option.bind_eq_some_iff.mp h
    obtain ⟨rfl, rfl⟩ : newTd = td ∧ _ = s' := by simpa using h
    refine ⟨rfl, _, _, rfl, ?_, fun p hp => ?_⟩
    · rcases eq_or_ne newTd last with rfl | hne
      · rw [Function.update_self, Function.update_self]
      · rw [Function.update_of_ne hne, Function.update_self]
    · rcases eq_or_ne p last with rfl | hne
      · rw [Function.update_self, Function.update_of_ne hp]
      · rw [Function.update_of_ne hne, Function.update_of_ne hp]

/-- Pushing words changes byte memory only. -/
theorem pushWords_spec (s : State) (rsp : ℕ) (ws : List ℕ) :
    ∃ mem, (pushWords s rsp ws).2 = { s with mmu := { s.mmu with mem := mem } } := by
  induction ws generalizing s rsp with
  | nil => exact ⟨s.mmu.mem, rfl⟩
  | cons w ws ih =>
    obtain ⟨mem, heq⟩ := ih { s with mmu := { s.mmu with mem := s.mmu.mem.store64 (rsp - 8) w } }
      (rsp - 8)
    exact ⟨mem, heq⟩

/-! ## Creation -/

/-- **Inversion**, the first process: the token, the permission for the directory, and the words on the
stack, each from the state that the one before leaves. -/
theorem kernelInitializeProcess_first {rip permissions : ℕ} (hfirst : s.firstTask = 0)
    (h : kernelInitializeProcess P fuel s rip permissions = some s') :
    ∃ td s₁ cwd, kernelGetTokenForProcess fuel
        { s with
          processId := s.processId + 1
          firstTask := s.blocks s.mallocs
          nodes := Function.update s.nodes (s.blocks s.mallocs)
            { s.nodes (s.blocks s.mallocs) with task := s.blocks (s.mallocs + 1) }
          mallocs := s.mallocs + 3 }
        (pidValue (s.processId + 1)) (UInt8.ofNat permissions) = some (td, s₁) ∧
      objGetRootObject fuel s₁ = some cwd ∧
      s' = { s₁ with
        mmu :=
          { s₁.mmu with
            mem := (pushWords s₁ (s.blocks (s.mallocs + 2) + 0x2000) (switchFrame rip)).2.mmu.mem }
        tasks := Function.update s₁.tasks (s.blocks (s.mallocs + 1))
          { rip := rip
            rsp := (pushWords s₁ (s.blocks (s.mallocs + 2) + 0x2000) (switchFrame rip)).1
            cr3 := s₁.cr3
            id := pidValue (s.processId + 1)
            token := td
            cwd := cwd }
        currentTask := s.blocks s.mallocs } := by
  simp only [kernelInitializeProcess, if_pos hfirst, initializeFirst] at h
  obtain ⟨⟨td, s₁⟩, htoken, h⟩ := Option.bind_eq_some_iff.mp h
  obtain ⟨cwd, hcwd, h⟩ := Option.bind_eq_some_iff.mp h
  obtain ⟨mem, hmem⟩ := pushWords_spec s₁ (s.blocks (s.mallocs + 2) + 0x2000) (switchFrame rip)
  have hpush : (pushWords s₁ (s.blocks (s.mallocs + 2) + 0x2000) (switchFrame rip)).2.mmu.mem = mem := by
    rw [hmem]
  refine ⟨td, s₁, cwd, htoken, hcwd, ?_⟩
  rw [hpush, ← Option.some.inj h]
  dsimp only
  rw [hmem]

/-- The state in which a later process has its words pushed, with the state behind the token. -/
def nextState (P : Mmu.Platform) (s s₁ : State) : State :=
  (newCr3 P s₁ 0).2.setNode (s.blocks s.mallocs)
    { task := s.blocks (s.mallocs + 1), next := (newCr3 P s₁ 0).2.firstTask }

/-- **Inversion**, a later process: the new node is written before the words on the stack, and linked behind
them. -/
theorem kernelInitializeProcess_next {rip permissions : ℕ} (hfirst : s.firstTask ≠ 0)
    (h : kernelInitializeProcess P fuel s rip permissions = some s') :
    ∃ last td s₁ cwd, lastNode fuel s = some last ∧
      kernelGetTokenForProcess fuel { s with processId := s.processId + 1, mallocs := s.mallocs + 3 }
        (pidValue (s.processId + 1)) (UInt8.ofNat permissions) = some (td, s₁) ∧
      objGetRootObject fuel (newCr3 P s₁ 0).2 = some cwd ∧
      s' = { nextState P s s₁ with
        mmu :=
          { (nextState P s s₁).mmu with
            mem := (pushWords (nextState P s s₁) (s.blocks (s.mallocs + 2) + 0x2000)
              (switchFrame rip)).2.mmu.mem }
        nodes := Function.update (nextState P s s₁).nodes last
          { (nextState P s s₁).nodes last with next := s.blocks s.mallocs }
        tasks := Function.update (nextState P s s₁).tasks (s.blocks (s.mallocs + 1))
          { rip := rip
            rsp := (pushWords (nextState P s s₁) (s.blocks (s.mallocs + 2) + 0x2000) (switchFrame rip)).1
            cr3 := (newCr3 P s₁ 0).1
            id := pidValue (s.processId + 1)
            token := td
            cwd := cwd } } := by
  simp only [kernelInitializeProcess, if_neg hfirst, initializeNext] at h
  obtain ⟨last, hlast, h⟩ := Option.bind_eq_some_iff.mp h
  obtain ⟨⟨td, s₁⟩, htoken, h⟩ := Option.bind_eq_some_iff.mp h
  obtain ⟨cwd, hcwd, h⟩ := Option.bind_eq_some_iff.mp h
  obtain ⟨mem, hmem⟩ := pushWords_spec (nextState P s s₁) (s.blocks (s.mallocs + 2) + 0x2000) (switchFrame rip)
  refine ⟨last, td, s₁, cwd, hlast, htoken, hcwd, ?_⟩
  change some (((pushWords (nextState P s s₁) _ _).2.setTask _ _).setNode _ _) = _ at h
  rw [hmem] at h ⊢
  exact (Option.some.inj h).symm

/-- The state in which a clone has its words pushed, with the state behind the token: the stack of the caller
has been copied to a fifth block. -/
def cloneState (P : Mmu.Platform) (s s₁ : State) (ursp : ℕ) : State :=
  let t := (newCr3 P s₁ ((s.cr3 + P.hhdmOffset) % 2 ^ 64)).2
  { t.setNode (s.blocks s.mallocs) { task := s.blocks (s.mallocs + 1), next := t.firstTask } with
    mallocs := t.mallocs + 1
    mmu := { t.mmu with mem := t.mmu.mem.memcpy (t.blocks t.mallocs + 0x2000) ursp 2048 } }

/-- **Inversion**, a clone. -/
theorem kernelCloneProcess_some {resumeUser rip ursp id : ℕ}
    (h : kernelCloneProcess P fuel resumeUser s rip ursp = some (id, s')) :
    s.firstTask ≠ 0 ∧ id = pidValue (s.processId + 1) ∧ ∃ last td s₁ cwd, lastNode fuel s = some last ∧
      kernelGetTokenForProcess fuel { s with processId := s.processId + 1, mallocs := s.mallocs + 3 }
        (pidValue (s.processId + 1)) 1 = some (td, s₁) ∧
      objGetRootObject fuel (newCr3 P s₁ ((s.cr3 + P.hhdmOffset) % 2 ^ 64)).2 = some cwd ∧
      s' = { cloneState P s s₁ ursp with
        mmu :=
          { (cloneState P s s₁ ursp).mmu with
            mem := (pushWords (cloneState P s s₁ ursp) (s.blocks (s.mallocs + 2) + 0x128)
              (cloneFrame rip (s₁.blocks s₁.mallocs + 0x2000) resumeUser)).2.mmu.mem }
        nodes := Function.update (cloneState P s s₁ ursp).nodes last
          { (cloneState P s s₁ ursp).nodes last with next := s.blocks s.mallocs }
        tasks := Function.update (cloneState P s s₁ ursp).tasks (s.blocks (s.mallocs + 1))
          { rip := rip
            rsp := (pushWords (cloneState P s s₁ ursp) (s.blocks (s.mallocs + 2) + 0x128)
              (cloneFrame rip (s₁.blocks s₁.mallocs + 0x2000) resumeUser)).1
            cr3 := (newCr3 P s₁ ((s.cr3 + P.hhdmOffset) % 2 ^ 64)).1
            id := pidValue (s.processId + 1)
            token := td
            cwd := cwd } } := by
  have hfirst : s.firstTask ≠ 0 := by
    intro hzero
    simp [kernelCloneProcess, hzero] at h
  simp only [kernelCloneProcess, if_neg hfirst] at h
  obtain ⟨last, hlast, h⟩ := Option.bind_eq_some_iff.mp h
  obtain ⟨⟨td, s₁⟩, htoken, h⟩ := Option.bind_eq_some_iff.mp h
  obtain ⟨cwd, hcwd, h⟩ := Option.bind_eq_some_iff.mp h
  obtain ⟨mem, hmem⟩ := pushWords_spec (cloneState P s s₁ ursp) (s.blocks (s.mallocs + 2) + 0x128)
    (cloneFrame rip (s₁.blocks s₁.mallocs + 0x2000) resumeUser)
  change some (_, ((pushWords (cloneState P s s₁ ursp) (s.blocks (s.mallocs + 2) + 0x128)
    (cloneFrame rip (s₁.blocks s₁.mallocs + 0x2000) resumeUser)).2.setTask _ _).setNode _ _) = _ at h
  rw [hmem] at h
  obtain ⟨rfl, hs'⟩ := Prod.mk.inj (Option.some.inj h)
  refine ⟨hfirst, rfl, last, td, s₁, cwd, hlast, htoken, hcwd, ?_⟩
  rw [hmem]
  exact hs'.symm

/-- What the creation of a process besides the first does to the records: a new node behind the
last one that points back to the first, with a new task that has the next identifier and a new
token. -/
structure Created (fuel : ℕ) (s s' : State) (permissions : UInt8) : Prop where
  first : s'.firstTask = s.firstTask
  current : s'.currentTask = s.currentTask
  blocks : s'.blocks = s.blocks
  mallocs : s.mallocs + 4 ≤ s'.mallocs
  pid : s'.processId = s.processId + 1
  nodes : ∃ last, lastNode fuel s = some last ∧
    s'.nodes = Function.update
      (Function.update s.nodes (s.blocks s.mallocs)
        { task := s.blocks (s.mallocs + 1), next := s.firstTask }) last
      { Function.update s.nodes (s.blocks s.mallocs)
          { task := s.blocks (s.mallocs + 1), next := s.firstTask } last with
        next := s.blocks s.mallocs }
  tasks : ∃ t : Task, s'.tasks = Function.update s.tasks (s.blocks (s.mallocs + 1)) t ∧
    t.id = pidValue (s.processId + 1) ∧ t.token = s.blocks (s.mallocs + 3)
  token : (s'.tokens (s.blocks (s.mallocs + 3))).canAccessRoot = permissions &&& 1
  tokens : ∀ p, p ≠ s.blocks (s.mallocs + 3) →
    (s'.tokens p).canAccessRoot = (s.tokens p).canAccessRoot

theorem initializeNext_spec {rip permissions : ℕ} (hfirst : s.firstTask ≠ 0)
    (h : kernelInitializeProcess P fuel s rip permissions = some s') :
    Created fuel s s' (UInt8.ofNat permissions) := by
  obtain ⟨last, td, s₁, cwd, hlast, htoken, -, rfl⟩ := kernelInitializeProcess_next hfirst h
  obtain ⟨rfl, tokens, tokDict, rfl, htd, hrest⟩ := kernelGetTokenForProcess_spec htoken
  exact ⟨rfl, rfl, rfl, le_rfl, rfl, ⟨last, hlast, rfl⟩, ⟨_, rfl, rfl, rfl⟩, htd, hrest⟩

theorem kernelCloneProcess_spec {resumeUser rip ursp id : ℕ}
    (h : kernelCloneProcess P fuel resumeUser s rip ursp = some (id, s')) :
    s.firstTask ≠ 0 ∧ id = pidValue (s.processId + 1) ∧ Created fuel s s' 1 := by
  obtain ⟨hfirst, hid, last, td, s₁, cwd, hlast, htoken, -, rfl⟩ := kernelCloneProcess_some h
  obtain ⟨rfl, tokens, tokDict, rfl, htd, hrest⟩ := kernelGetTokenForProcess_spec htoken
  exact ⟨hfirst, hid, rfl, rfl, rfl, Nat.le_succ _, rfl, ⟨last, hlast, rfl⟩, ⟨_, rfl, rfl, rfl⟩,
    htd, hrest⟩

/-- What the creation of the first process does to the records. -/
structure CreatedFirst (s s' : State) (permissions : UInt8) : Prop where
  first : s'.firstTask = s.blocks s.mallocs
  current : s'.currentTask = s.blocks s.mallocs
  blocks : s'.blocks = s.blocks
  mallocs : s.mallocs + 4 ≤ s'.mallocs
  pid : s'.processId = s.processId + 1
  nodes : s'.nodes = Function.update s.nodes (s.blocks s.mallocs)
    { s.nodes (s.blocks s.mallocs) with task := s.blocks (s.mallocs + 1) }
  tasks : ∃ t : Task, s'.tasks = Function.update s.tasks (s.blocks (s.mallocs + 1)) t ∧
    t.id = pidValue (s.processId + 1) ∧ t.token = s.blocks (s.mallocs + 3)
  token : (s'.tokens (s.blocks (s.mallocs + 3))).canAccessRoot = permissions &&& 1
  tokens : ∀ p, p ≠ s.blocks (s.mallocs + 3) →
    (s'.tokens p).canAccessRoot = (s.tokens p).canAccessRoot

theorem initializeFirst_spec {rip permissions : ℕ} (hfirst : s.firstTask = 0)
    (h : kernelInitializeProcess P fuel s rip permissions = some s') :
    CreatedFirst s s' (UInt8.ofNat permissions) := by
  obtain ⟨td, s₁, cwd, htoken, -, rfl⟩ := kernelInitializeProcess_first hfirst h
  obtain ⟨rfl, tokens, tokDict, rfl, htd, hrest⟩ := kernelGetTokenForProcess_spec htoken
  exact ⟨rfl, rfl, rfl, le_rfl, rfl, rfl, ⟨_, rfl, rfl, rfl⟩, htd, hrest⟩

/-! ## Token of a new process -/

/-- What both kinds of creation do to the records a permission is read from. -/
structure Allocated (s s' : State) (permissions : UInt8) : Prop where
  blocks : s'.blocks = s.blocks
  mallocs : s.mallocs + 4 ≤ s'.mallocs
  newNode : (s'.nodes (s.blocks s.mallocs)).task = s.blocks (s.mallocs + 1)
  oldNode : ∀ p, p ≠ s.blocks s.mallocs → (s'.nodes p).task = (s.nodes p).task
  tasks : ∃ t : Task, s'.tasks = Function.update s.tasks (s.blocks (s.mallocs + 1)) t ∧
    t.id = pidValue (s.processId + 1) ∧ t.token = s.blocks (s.mallocs + 3)
  token : (s'.tokens (s.blocks (s.mallocs + 3))).canAccessRoot = permissions &&& 1
  tokens : ∀ p, p ≠ s.blocks (s.mallocs + 3) →
    (s'.tokens p).canAccessRoot = (s.tokens p).canAccessRoot

theorem Created.allocated {permissions : UInt8} (h : Created fuel s s' permissions) :
    Allocated s s' permissions := by
  obtain ⟨last, -, hnodes⟩ := h.nodes
  refine ⟨h.blocks, h.mallocs, ?_, fun p hp => ?_, h.tasks, h.token, h.tokens⟩
  · rw [hnodes]
    rcases eq_or_ne (s.blocks s.mallocs) last with heq | hne
    · rw [heq, Function.update_self, Function.update_self]
    · rw [Function.update_of_ne hne, Function.update_self]
  · rw [hnodes]
    rcases eq_or_ne p last with heq | hne
    · rw [← heq, Function.update_self, Function.update_of_ne hp]
    · rw [Function.update_of_ne hne, Function.update_of_ne hp]

theorem CreatedFirst.allocated {permissions : UInt8} (h : CreatedFirst s s' permissions) :
    Allocated s s' permissions := by
  refine ⟨h.blocks, h.mallocs, ?_, fun p hp => ?_, h.tasks, h.token, h.tokens⟩
  · rw [h.nodes, Function.update_self]
  · rw [h.nodes, Function.update_of_ne hp]

/-! ## Switching -/

/-- A switch moves on to the next node, if there is one, and saves a stack pointer. -/
theorem kernelSwitchProcess_spec (s : State) (rsp : ℕ) :
    (kernelSwitchProcess s rsp = s ∧ (s.currentTask = 0 ∨ (s.nodes s.currentTask).next = 0)) ∨
      s.currentTask ≠ 0 ∧ (s.nodes s.currentTask).next ≠ 0 ∧
      ∃ prev t cr3, kernelSwitchProcess s rsp =
        { s with
          prevTask := prev
          currentTask := (s.nodes s.currentTask).next
          cr3 := cr3
          tasks := Function.update s.tasks (s.nodes s.currentTask).task t } ∧
        t.id = (s.tasks (s.nodes s.currentTask).task).id ∧
        t.token = (s.tasks (s.nodes s.currentTask).task).token := by
  simp only [kernelSwitchProcess]
  by_cases hcurrent : s.currentTask = 0
  · exact .inl ⟨if_pos hcurrent, .inl hcurrent⟩
  rw [if_neg hcurrent]
  by_cases hnext : (s.nodes s.currentTask).next = 0
  · exact .inl ⟨if_pos hnext, .inr hnext⟩
  rw [if_neg hnext]
  exact .inr ⟨hcurrent, hnext, _, _, _, rfl, rfl, rfl⟩

end Cutesugar.Kernel
