import Cutesugar.Kernel.Arch.PageMap
import Cutesugar.Kernel.Arch.TaskRing

/-!
# The scheduler

The loops behind a creation search the task list, the token dictionary and, for the check of
the permission, the task list once more. Where the blocks come zero-filled all of them end, so
every call returns; and whenever calls return, the ring is as it should be.

## Structure

- `TokenList`: the token dictionary as a list that ends.
- `TaskCall.returns`: every call returns.
- `scheduler_ring`: the ring over whole runs.
-/

namespace Cutesugar.Kernel

open Lib

/-! ## The token dictionary -/

/-- The token dictionary is a list that ends, and the entries to come are zero-filled. -/
structure TokenList (s : State) (ts : List ℕ) : Prop where
  nodup : ts.Nodup
  chain : Chain (fun t => (s.tokens t).next) s.tokDict ts 0
  entry : ∀ t ∈ ts, ∃ i < s.mallocs, t = s.blocks i
  zero : ∀ i, s.mallocs ≤ i → (s.tokens (s.blocks i)).next = 0

variable {P : Mmu.Platform} {fuel resumeUser : ℕ} {s s' : State} {ps ts : List ℕ}

/-- The token dictionary depends on its own fields, and the supply may move on. -/
theorem TokenList.congr (h : TokenList s ts) (htokens : s'.tokens = s.tokens)
    (hdict : s'.tokDict = s.tokDict) (hblocks : s'.blocks = s.blocks)
    (hmallocs : s.mallocs ≤ s'.mallocs) : TokenList s' ts where
  nodup := h.nodup
  chain := by rw [htokens, hdict]; exact h.chain
  entry t ht := by
    obtain ⟨i, hi, heq⟩ := h.entry t ht
    exact ⟨i, hi.trans_le hmallocs, by rw [hblocks, heq]⟩
  zero i hi := by rw [htokens, hblocks]; exact h.zero i (hmallocs.trans hi)

/-- **New token**: the search for the end of the dictionary ends. -/
theorem TokenList.append (h : TokenList s ts) (hb : Blocks s) (hfuel : ts.length ≤ fuel)
    (id : ℕ) (permissions : UInt8) :
    ∃ s', kernelGetTokenForProcess fuel s id permissions = some (s.blocks s.mallocs, s') ∧
      TokenList s' (ts ++ [s.blocks s.mallocs]) := by
  have hfresh : ∀ t ∈ ts, t ≠ s.blocks s.mallocs := by
    intro t ht heq
    obtain ⟨i, hi, rfl⟩ := h.entry t ht
    exact hi.ne (hb.injective heq)
  have hnodup : (ts ++ [s.blocks s.mallocs]).Nodup := by
    refine List.nodup_append.mpr ⟨h.nodup, List.nodup_singleton _, fun t ht t' ht' => ?_⟩
    rw [List.mem_singleton.mp ht']
    exact hfresh t ht
  have hentry : ∀ t ∈ ts ++ [s.blocks s.mallocs], ∃ i < s.mallocs + 1, t = s.blocks i := by
    intro t ht
    rcases List.mem_append.mp ht with ht | ht
    · obtain ⟨i, hi, heq⟩ := h.entry t ht
      exact ⟨i, by omega, heq⟩
    · exact ⟨s.mallocs, by omega, List.mem_singleton.mp ht⟩
  have hnew : ∀ i, s.mallocs + 1 ≤ i → s.blocks i ≠ s.blocks s.mallocs :=
    fun i hi heq => by have := hb.injective heq; omega
  have hzero := h.zero s.mallocs le_rfl
  simp only [kernelGetTokenForProcess, State.setToken]
  by_cases hdict : s.tokDict = 0
  · rw [if_pos hdict]
    obtain rfl : ts = [] := by
      cases ts with
      | nil => rfl
      | cons t ts =>
        obtain ⟨i, -, ht⟩ := h.entry t (by simp)
        exact absurd (ht ▸ h.chain.1.symm.trans hdict) (hb.nonnull i)
    refine ⟨_, rfl, hnodup, ?_, hentry, fun i hi => ?_⟩
    · simpa using hzero
    · have hi' : s.mallocs ≤ i := (Nat.le_succ _).trans hi
      show (Function.update s.tokens _ _ (s.blocks i)).next = 0
      rw [Function.update_of_ne (hnew i hi)]
      exact h.zero i hi'
  · rw [if_neg hdict]
    have hne : ts ≠ [] := fun hnil => hdict (by simpa [hnil] using h.chain)
    obtain ⟨init, l, rfl⟩ : ∃ init l, ts = init ++ [l] :=
      ⟨_, _, (List.dropLast_append_getLast hne).symm⟩
    have hl := hfresh l (by simp)
    have hinit : l ∉ init := fun hmem => (List.nodup_append.mp h.nodup).2.2 l hmem l (by simp) rfl
    -- the loop runs over the old entries, with the new one already written
    have hold : Chain (fun t => (Function.update s.tokens (s.blocks s.mallocs)
        { id := id, canAccessRoot := permissions &&& 1,
          next := (s.tokens (s.blocks s.mallocs)).next } t).next) s.tokDict (init ++ [l]) 0 :=
      h.chain.congr fun t ht => by rw [Function.update_of_ne (hfresh t ht)]
    generalize hm : Function.update s.tokens (s.blocks s.mallocs)
      { id := id, canAccessRoot := permissions &&& 1,
        next := (s.tokens (s.blocks s.mallocs)).next } = tokens at hold ⊢
    obtain ⟨b, hchain, rfl, hend⟩ := chain_append.mp hold
    have hwalk : walk (fun t => (tokens t).next) (fun t => (tokens t).next == 0) fuel s.tokDict =
        some b := by
      refine walk_of_chain hchain (by simpa using hend) (fun t ht => ?_) ?_
      · obtain ⟨xs, ys, rfl⟩ := List.append_of_mem ht
        obtain ⟨c, -, rfl, hys⟩ := chain_append.mp hchain
        have hnext : (tokens c).next ∈ ys ++ [b] := by
          cases ys with
          | nil => simpa using hys
          | cons y ys => simp [hys.1]
        obtain ⟨i, -, heq⟩ := h.entry (tokens c).next
          (by simpa using .inr (.inr (by simpa using hnext)))
        simpa [heq] using hb.nonnull i
      · simp only [List.length_append, List.length_singleton] at hfuel
        omega
    rw [hwalk]
    refine ⟨_, rfl, hnodup, ?_, hentry, fun i hi => ?_⟩
    · refine chain_append.mpr ⟨s.blocks s.mallocs, ?_, rfl, ?_⟩
      · refine hold.redirect hinit (by simp) fun t ht => ?_
        have htb : t ≠ b := fun heq => hinit (heq ▸ ht)
        simp only [Function.update_of_ne htb]
      · simp only [chain_nil, Function.update_of_ne hl.symm, ← hm, Function.update_self]
        exact hzero
    · have hi' : s.mallocs ≤ i := (Nat.le_succ _).trans hi
      obtain ⟨j, hj, heq⟩ := h.entry b (by simp)
      have hib : s.blocks i ≠ b := by
        rw [heq]
        exact fun heq => by have := hb.injective heq; omega
      simp only [Function.update_of_ne hib, ← hm, Function.update_of_ne (hnew i hi)]
      exact h.zero i hi'

/-! ## Calls return -/

/-- The search of `find_process` for the identifier of a node of the ring ends at a node of the
ring with this identifier. -/
theorem RingInv.findNode (h : RingInv s ps) (hfuel : ps.length ≤ fuel) {c : ℕ} (hc : c ∈ ps) :
    ∃ t ∈ ps, findNode fuel s (s.tasks (s.nodes c).task).id = some t ∧
      (s.tasks (s.nodes t).task).id = (s.tasks (s.nodes c).task).id := by
  have hfound : ∃ t ∈ ps, Kernel.findNode fuel s (s.tasks (s.nodes c).task).id = some t ∧
      (t == 0 || (s.tasks (s.nodes t).task).id == (s.tasks (s.nodes c).task).id) = true := by
    apply walk_finds (h.chain (List.ne_nil_of_mem hc)) hc _ hfuel
    simp
  obtain ⟨t, ht, hwalk, hstop⟩ := hfound
  refine ⟨t, ht, hwalk, ?_⟩
  simpa [h.nonnull ht] using hstop

/-- The check of a permission returns, also in the middle of a creation. -/
theorem RingInv.kernelCheckToken (h : RingInv s ps) (hfuel : ps.length ≤ fuel)
    (hnodes : s'.nodes = s.nodes) (htasks : s'.tasks = s.tasks)
    (hfirst : s'.firstTask = s.firstTask) (hcurrent : s'.currentTask = s.currentTask)
    (permission : UInt8) : ∃ v, kernelCheckToken fuel s' permission = some v := by
  simp only [Kernel.kernelCheckToken, getCurrentProcessId, hcurrent, hnodes, htasks]
  by_cases hzero : (if s.currentTask = 0 then 0 else (s.tasks (s.nodes s.currentTask).task).id) = 0
  · exact ⟨1, if_pos hzero⟩
  rw [if_neg hzero]
  have hcur : s.currentTask ≠ 0 := fun hcur => hzero (if_pos hcur)
  have hmem : s.currentTask ∈ ps := h.current fun hnil => hcur (h.empty hnil).2
  obtain ⟨t, ht, hfind, -⟩ := h.findNode hfuel hmem
  obtain ⟨i, -, htask⟩ := h.task t ht
  have hprocess : findProcess fuel s' (s.tasks (s.nodes s.currentTask).task).id =
      some (s.nodes t).task := by
    have hsame : Kernel.findNode fuel s' (s.tasks (s.nodes s.currentTask).task).id =
        Kernel.findNode fuel s (s.tasks (s.nodes s.currentTask).task).id := by
      simp only [Kernel.findNode, hnodes, htasks, hfirst]
    simp [findProcess, hsame, hfind, h.nonnull ht, hnodes]
  rw [if_neg hcur, hprocess]
  have htask0 : (s.nodes t).task ≠ 0 := by
    rw [htask]
    exact h.blocks.nonnull i
  simp only [Option.bind_eq_bind, Option.bind_some, if_neg htask0]
  split_ifs
  · exact ⟨1, rfl⟩
  · exact ⟨0, rfl⟩

theorem RingInv.objGetRootObject (h : RingInv s ps) (hfuel : ps.length ≤ fuel)
    (hnodes : s'.nodes = s.nodes) (htasks : s'.tasks = s.tasks)
    (hfirst : s'.firstTask = s.firstTask) (hcurrent : s'.currentTask = s.currentTask) :
    ∃ v, objGetRootObject fuel s' = some v := by
  obtain ⟨v, hv⟩ := h.kernelCheckToken hfuel hnodes htasks hfirst hcurrent 1
  exact ⟨_, by rw [Kernel.objGetRootObject, hv]; rfl⟩

/-- The search for the last node returns. -/
theorem RingInv.lastNode_returns (h : RingInv s ps) (hne : ps ≠ []) (hfuel : ps.length ≤ fuel) :
    ∃ last, Kernel.lastNode fuel s = some last := by
  obtain ⟨init, l, rfl⟩ : ∃ init l, ps = init ++ [l] :=
    ⟨_, _, (List.dropLast_append_getLast hne).symm⟩
  obtain ⟨hinit, hend, hgo⟩ := h.lastNode rfl
  refine ⟨l, walk_of_chain hinit (by simpa using hend) (fun p hp => by simpa using hgo p hp) ?_⟩
  simp only [List.length_append, List.length_singleton] at hfuel
  omega

/-- A sequence returns where its first part does and the rest does on what that returned. -/
theorem exists_bind {α β : Type*} {x : Option α} {k : α → Option β} {R : α → Prop} {Q : β → Prop}
    (hx : ∃ a, x = some a ∧ R a) (hk : ∀ a, R a → ∃ b, k a = some b ∧ Q b) :
    ∃ b, x.bind k = some b ∧ Q b := by
  obtain ⟨a, rfl, ha⟩ := hx
  exact hk a ha

/-- A sequence returns where its first part does and the rest does on anything. -/
theorem exists_bind_of_returns {α β : Type*} {x : Option α} {k : α → Option β} {Q : β → Prop}
    (hx : ∃ a, x = some a) (hk : ∀ a, ∃ b, k a = some b ∧ Q b) : ∃ b, x.bind k = some b ∧ Q b := by
  obtain ⟨a, rfl⟩ := hx
  exact hk a

/-- The token of a new process, also in the middle of a creation. -/
theorem TokenList.getToken (h : TokenList s ts) (hb : Blocks s) (hfuel : ts.length ≤ fuel)
    {id : ℕ} {permissions : UInt8} (htokens : s'.tokens = s.tokens)
    (hdict : s'.tokDict = s.tokDict) (hblocks : s'.blocks = s.blocks)
    (hmallocs : s.mallocs ≤ s'.mallocs) :
    ∃ r, kernelGetTokenForProcess fuel s' id permissions = some r ∧
      ∃ tokens tokDict, r = (s'.blocks s'.mallocs,
        { s' with mallocs := s'.mallocs + 1, tokens := tokens, tokDict := tokDict }) ∧
        TokenList r.2 (ts ++ [s'.blocks s'.mallocs]) := by
  have hb' : Blocks s' := ⟨hblocks ▸ hb.nonnull, hblocks ▸ hb.injective⟩
  obtain ⟨s₁, hget, hlist⟩ :=
    (h.congr htokens hdict hblocks hmallocs).append hb' hfuel id permissions
  obtain ⟨-, tokens, tokDict, rfl, -⟩ := kernelGetTokenForProcess_spec hget
  exact ⟨_, hget, tokens, tokDict, rfl, hlist⟩

theorem initializeFirst_returns (h : RingInv s []) (ht : TokenList s ts) (hts : ts.length ≤ fuel)
    (rip permissions : ℕ) :
    ∃ s', kernelInitializeProcess P fuel s rip permissions = some s' ∧
      TokenList s' (ts ++ [s.blocks (s.mallocs + 3)]) := by
  obtain ⟨hfirst, hcurrent⟩ := h.empty rfl
  simp only [kernelInitializeProcess, if_pos hfirst, initializeFirst]
  refine exists_bind (ht.getToken h.blocks hts rfl rfl rfl ?_) ?_
  · exact Nat.le_add_right s.mallocs 3
  · rintro _ ⟨tokens, tokDict, rfl, hlist⟩
    -- without a current process the permission is granted
    have hgranted : ∀ s₁ : State, s₁.currentTask = 0 → ∃ cwd, Kernel.objGetRootObject fuel s₁ =
        some cwd := by
      intro s₁ hs₁
      refine ⟨s₁.rootObject, ?_⟩
      simp [Kernel.objGetRootObject, Kernel.kernelCheckToken, getCurrentProcessId, hs₁]
    refine exists_bind_of_returns (hgranted _ hcurrent) fun cwd => ⟨_, rfl, ?_⟩
    obtain ⟨mem, hmem⟩ := pushWords_spec _ _ _
    rw [hmem]
    exact hlist.congr rfl rfl rfl le_rfl

theorem initializeNext_returns (h : RingInv s ps) (ht : TokenList s ts) (hps : ps.length ≤ fuel)
    (hts : ts.length ≤ fuel) (hfirst : s.firstTask ≠ 0) (rip permissions : ℕ) :
    ∃ s', kernelInitializeProcess P fuel s rip permissions = some s' ∧
      TokenList s' (ts ++ [s.blocks (s.mallocs + 3)]) := by
  obtain ⟨last, hlast⟩ := h.lastNode_returns (h.ne_nil hfirst) hps
  simp only [kernelInitializeProcess, if_neg hfirst, initializeNext, newCr3]
  refine exists_bind_of_returns ⟨last, hlast⟩ fun last => ?_
  refine exists_bind (ht.getToken h.blocks hts rfl rfl rfl ?_) ?_
  · exact Nat.le_add_right s.mallocs 3
  · rintro _ ⟨tokens, tokDict, rfl, hlist⟩
    refine exists_bind_of_returns (h.objGetRootObject hps rfl rfl rfl rfl) fun cwd => ⟨_, rfl, ?_⟩
    obtain ⟨mem, hmem⟩ := pushWords_spec _ _ _
    rw [hmem]
    exact hlist.congr rfl rfl rfl le_rfl

theorem kernelCloneProcess_returns (h : RingInv s ps) (ht : TokenList s ts)
    (hps : ps.length ≤ fuel) (hts : ts.length ≤ fuel) (hfirst : s.firstTask ≠ 0) (rip ursp : ℕ) :
    ∃ r, kernelCloneProcess P fuel resumeUser s rip ursp = some r ∧
      TokenList r.2 (ts ++ [s.blocks (s.mallocs + 3)]) := by
  obtain ⟨last, hlast⟩ := h.lastNode_returns (h.ne_nil hfirst) hps
  simp only [kernelCloneProcess, if_neg hfirst, newCr3]
  refine exists_bind_of_returns ⟨last, hlast⟩ fun last => ?_
  refine exists_bind (ht.getToken h.blocks hts rfl rfl rfl ?_) ?_
  · exact Nat.le_add_right s.mallocs 3
  · rintro _ ⟨tokens, tokDict, rfl, hlist⟩
    refine exists_bind_of_returns (h.objGetRootObject hps rfl rfl rfl rfl) fun cwd => ⟨_, rfl, ?_⟩
    obtain ⟨mem, hmem⟩ := pushWords_spec _ _ _
    rw [hmem]
    exact hlist.congr rfl rfl rfl (Nat.le_succ _)

/-- A process is cloned only when there is a current one. -/
def TaskCall.HasCurrent (s : State) : TaskCall → Prop
  | .cloneProcess _ _ => s.currentTask ≠ 0
  | _ => True

instance (s : State) : (c : TaskCall) → Decidable (c.HasCurrent s)
  | .initializeProcess _ _ => .isTrue trivial
  | .cloneProcess _ _ => inferInstanceAs (Decidable (_ ≠ _))
  | .switchProcess _ => .isTrue trivial

/-- **Calls return**: with zero-filled blocks and fuel for a round per process, every call
returns that does not clone without a current process. -/
theorem TaskCall.returns (h : RingInv s ps) (ht : TokenList s ts) (hps : ps.length ≤ fuel)
    (hts : ts.length ≤ fuel) {c : TaskCall} (hclone : c.HasCurrent s) :
    c.Returns P fuel resumeUser s ∧
      TokenList (c.step P fuel resumeUser s)
        (if c.creates then ts ++ [s.blocks (s.mallocs + 3)] else ts) := by
  cases c with
  | initializeProcess rip permissions =>
    have hinit : ∃ s', kernelInitializeProcess P fuel s rip permissions = some s' ∧
        TokenList s' (ts ++ [s.blocks (s.mallocs + 3)]) := by
      by_cases hfirst : s.firstTask = 0
      · obtain rfl : ps = [] := by
          cases ps with
          | nil => rfl
          | cons p qs => exact absurd (h.first_eq ▸ hfirst) (h.nonnull (List.mem_cons_self ..))
        exact initializeFirst_returns h ht hts rip permissions
      · exact initializeNext_returns h ht hps hts hfirst rip permissions
    obtain ⟨s', hresult, hlist⟩ := hinit
    simp only [TaskCall.Returns, TaskCall.step, TaskCall.result, hresult]
    exact ⟨rfl, hlist⟩
  | cloneProcess rip ursp =>
    -- a current process is one of the ring
    have hfirst : s.firstTask ≠ 0 := by
      cases ps with
      | nil => exact absurd (h.empty rfl).2 hclone
      | cons p qs => exact h.first_eq ▸ h.nonnull (List.mem_cons_self ..)
    have hclone : ∃ r, Kernel.kernelCloneProcess P fuel resumeUser s rip ursp = some r ∧
        TokenList r.2 (ts ++ [s.blocks (s.mallocs + 3)]) :=
      kernelCloneProcess_returns h ht hps hts hfirst rip ursp
    obtain ⟨r, hresult, hlist⟩ := hclone
    simp only [TaskCall.Returns, TaskCall.step, TaskCall.result, hresult]
    exact ⟨rfl, hlist⟩
  | switchProcess rsp =>
    refine ⟨rfl, ?_⟩
    rcases kernelSwitchProcess_spec s rsp with ⟨heq, -⟩ | ⟨-, -, prev, t, cr3, heq, -⟩
    · show TokenList (kernelSwitchProcess s rsp) ts
      rw [heq]
      exact ht
    · show TokenList (kernelSwitchProcess s rsp) ts
      rw [heq]
      exact ht.congr rfl rfl rfl le_rfl

/-! ## Whole runs -/

/-- **Runs return**: fuel for one round per call is enough. -/
theorem RingInv.returns (h : RingInv s ps) (ht : TokenList s ts) {calls : List TaskCall}
    (hps : ps.length + calls.length ≤ fuel) (hts : ts.length + calls.length ≤ fuel)
    (hcurrent : Along (TaskCall.step P fuel resumeUser) (fun s c => c.HasCurrent s) s calls) :
    Along (TaskCall.step P fuel resumeUser) (fun s c => c.Returns P fuel resumeUser s) s calls := by
  induction calls generalizing s ps ts with
  | nil => trivial
  | cons c calls ih =>
    simp only [List.length_cons] at hps hts
    have hps' : ps.length ≤ fuel := by omega
    have hts' : ts.length ≤ fuel := by omega
    obtain ⟨hret, hlist⟩ := TaskCall.returns h ht hps' hts' hcurrent.1
    refine ⟨hret, ih (h.step hret).1 hlist ?_ ?_ hcurrent.2⟩
    · split_ifs
      · simp only [List.length_append, List.length_singleton]
        omega
      · omega
    · split_ifs
      · simp only [List.length_append, List.length_singleton]
        omega
      · omega

/-- **Scheduler ring**, for every run of creations and switches:

- when the token entries come zero-filled too, every call returns that does not clone without a
  current process;
- after calls that return, the list visits every process once, in the order of creation, and is
  a ring from two processes on; as many switches as there are processes make each one current
  once; and a creation puts its process at the end of the current lap and moves no other. -/
theorem scheduler_ring (hstart : Start s) (calls : List TaskCall) :
    (TokenList s [] → calls.length ≤ fuel →
      Along (TaskCall.step P fuel resumeUser) (fun s c => c.HasCurrent s) s calls →
      Along (TaskCall.step P fuel resumeUser) (fun s c => c.Returns P fuel resumeUser s) s calls) ∧
    (Along (TaskCall.step P fuel resumeUser) (fun s c => c.Returns P fuel resumeUser s) s calls →
      ∃ ps, Ring (run (TaskCall.step P fuel resumeUser) s calls) ps ∧
        ps.length = calls.countP TaskCall.creates ∧
        (∀ rsps, ps ≠ [] → rsps.length = ps.length →
          (lap (run (TaskCall.step P fuel resumeUser) s calls) rsps).Perm ps) ∧
        ∀ pre post current,
          current = (run (TaskCall.step P fuel resumeUser) s calls).currentTask →
          ps = pre ++ current :: post →
          (∀ rsps, rsps.length = ps.length →
            lap (run (TaskCall.step P fuel resumeUser) s calls) rsps = post ++ pre ++ [current]) ∧
          ∀ c : TaskCall, c.creates →
            c.Returns P fuel resumeUser (run (TaskCall.step P fuel resumeUser) s calls) →
            ∃ new, new ∉ ps ∧ ∀ rsps, rsps.length = ps.length + 1 →
              lap (run (TaskCall.step P fuel resumeUser) s (calls ++ [c])) rsps =
                post ++ [new] ++ pre ++ [current]) := by
  have hring := RingInv.start hstart
  refine ⟨fun hlist hfuel hcurrent => ?_, fun hret => ?_⟩
  · exact hring.returns hlist (by simpa using hfuel) (by simpa using hfuel) hcurrent
  obtain ⟨ps, h, hlen⟩ := hring.run hret
  rw [List.nil_append] at h
  refine ⟨ps, h.toRing, hlen, fun rsps hne hrsps => ?_, fun pre post current hcurrent hps => ?_⟩
  · -- a lap is a rotation of the list that ends at the current process
    obtain ⟨pre, post, hps⟩ := List.append_of_mem (h.current hne)
    rw [h.lap_rotation hps hrsps]
    conv_rhs => rw [hps]
    rw [List.append_assoc]
    exact List.perm_append_comm.trans (by simp)
  · subst hcurrent
    refine ⟨fun rsps hrsps => h.lap_rotation hps hrsps, fun c hc hret => ?_⟩
    obtain ⟨hnext, hsame⟩ := h.step hret
    rw [if_pos hc] at hnext
    refine ⟨_, fun hmem => h.node_ne hmem le_rfl rfl, fun rsps hrsps => ?_⟩
    rw [run_append]
    -- the new process is the last one of the list, and so stands between `post` and `pre`
    have hsplit : ps ++ [(run (TaskCall.step P fuel resumeUser) s calls).blocks
        (run (TaskCall.step P fuel resumeUser) s calls).mallocs] =
        pre ++ (c.step P fuel resumeUser
          (run (TaskCall.step P fuel resumeUser) s calls)).currentTask ::
          (post ++ [(run (TaskCall.step P fuel resumeUser) s calls).blocks
            (run (TaskCall.step P fuel resumeUser) s calls).mallocs]) := by
      rw [hsame hc (by simp [hps]), hps]
      simp
    rw [run_cons, run_nil, hnext.lap_rotation hsplit (by simpa using hrsps),
      hsame hc (by simp [hps])]

/-! ## A kernel to run the functions on -/

/-- Zero-filled blocks from `0x200000` on, no processes, and the root object at `0x1000`. -/
def bootKernel : State where
  nodes _ := ⟨0, 0⟩
  tasks _ := ⟨0, 0, 0, 0, 0, 0⟩
  tokens _ := ⟨0, 0, 0⟩
  objects _ := ⟨⟨List.Vector.replicate 64 0, 0⟩, 0⟩
  lists _ := ⟨0, 0⟩
  firstTask := 0
  prevTask := 0
  currentTask := 0
  processId := 0
  tokDict := 0
  rootObject := 0x1000
  blocks i := 0x200000 + 0x10000 * i
  mallocs := 0
  mmu := Mmu.bootState
  cr3 := 0

theorem bootKernel_start : Start bootKernel where
  blocks :=
    { nonnull := fun i => by simp only [bootKernel]; omega
      injective := fun i j hij => by simp only [bootKernel] at hij; omega }
  first := rfl
  current := rfl
  pid := rfl
  zero _ _ := rfl

/-- Three processes, with switches in between. -/
theorem scheduler_ring_boot :
    ∃ ps, Ring (run (TaskCall.step Mmu.bootPlatform 8 0xFFFFFFFF80001000) bootKernel
        [.initializeProcess 0x1000 1, .switchProcess 0, .initializeProcess 0x2000 0,
          .switchProcess 0, .cloneProcess 0x3000 0x7000]) ps ∧ ps.length = 3 := by
  have hret : Along (TaskCall.step Mmu.bootPlatform 8 0xFFFFFFFF80001000)
      (fun s c => c.Returns Mmu.bootPlatform 8 0xFFFFFFFF80001000 s) bootKernel
      [.initializeProcess 0x1000 1, .switchProcess 0, .initializeProcess 0x2000 0,
        .switchProcess 0, .cloneProcess 0x3000 0x7000] := by decide
  obtain ⟨ps, hring, hlen, -⟩ := (scheduler_ring bootKernel_start _).2 hret
  exact ⟨ps, hring, hlen⟩

end Cutesugar.Kernel
