import Cutesugar.Kernel.Arch.Scheduler

/-!
# Privileges of processes

A process created without permission bit 0 is unprivileged, and so is every process cloned
while an unprivileged one is current. The check of the permission reads a token by way of the
process identifier, and `KernelCloneProcess` asks for a token with the permission whoever calls.

## Structure

- `RightsInv`: the token behind every node of the ring.
- `RightsInv.kernelCheckToken`: which token the check reads.
- `Lineage`: runs, with the processes of unprivileged lineage.
- `confined_iff_along_kept`: the check denies these exactly along the runs without such clones.
-/

namespace Cutesugar.Kernel

open Lib

variable {P : Mmu.Platform} {fuel resumeUser : ℕ} {s s' : State} {ps : List ℕ}
  {rights : List Bool} {c : TaskCall}

/-! ## Tokens of the ring -/

/-- `can_access_root` of the process of a node. -/
def State.right (s : State) (p : ℕ) : UInt8 :=
  (s.tokens (s.tasks (s.nodes p).task).token).canAccessRoot

/-- The permission a call creates its process with. -/
def TaskCall.right : TaskCall → Bool
  | .initializeProcess _ permissions => permissions % 2 == 1
  | .cloneProcess _ _ => true
  | .switchProcess _ => false

/-- The stored form of a permission. -/
def rightByte (b : Bool) : UInt8 := if b then 1 else 0

theorem rightByte_and (b : Bool) : rightByte b &&& 1 = 1 ↔ b = true := by
  cases b <;> decide

theorem rightByte_ofNat (permissions : ℕ) :
    UInt8.ofNat permissions &&& 1 = rightByte (permissions % 2 == 1) := by
  have hmod : permissions % 2 ^ 8 % 2 = permissions % 2 := Nat.mod_mod_of_dvd _ (by decide)
  apply UInt8.toNat_inj.mp
  rw [UInt8.toNat_and, UInt8.toNat_ofNat', UInt8.toNat_one, Nat.and_one_is_mod, hmod]
  rcases Nat.mod_two_eq_zero_or_one permissions with h | h <;> rw [h] <;> rfl

/-- The ring, with the permissions its processes were created with. -/
structure RightsInv (s : State) (ps : List ℕ) (rights : List Bool) : Prop
    extends RingInv s ps where
  token : ∀ p ∈ ps, ∃ i < s.mallocs, (s.tasks (s.nodes p).task).token = s.blocks i
  rights : ps.map s.right = rights.map rightByte

theorem RightsInv.start (h : Start s) : RightsInv s [] [] where
  toRingInv := RingInv.start h
  token _ hp := absurd hp List.not_mem_nil
  rights := rfl

theorem RightsInv.length (h : RightsInv s ps rights) : rights.length = ps.length := by
  simpa using (congrArg List.length h.rights).symm

/-- A creation reaches no task and no token of an older process. -/
theorem RightsInv.old (h : RightsInv s ps rights) {permissions : UInt8}
    (ha : Allocated s s' permissions) {p : ℕ} (hp : p ∈ ps) :
    (s'.tasks (s'.nodes p).task).token = (s.tasks (s.nodes p).task).token ∧
      s'.right p = s.right p := by
  obtain ⟨t, htasks, -⟩ := ha.tasks
  have htask : s'.tasks (s'.nodes p).task = s.tasks (s.nodes p).task := by
    rw [ha.oldNode p (h.node_ne hp le_rfl), htasks,
      Function.update_of_ne (h.task_ne hp (Nat.le_succ _))]
  refine ⟨by rw [htask], ?_⟩
  obtain ⟨i, hi, htoken⟩ := h.token p hp
  rw [State.right, State.right, htask, ha.tokens]
  rw [htoken]
  exact fun heq => by have := h.blocks.injective heq; omega

/-- **Creation**: one more token behind the ring. -/
theorem RightsInv.append (h : RightsInv s ps rights) {permissions : UInt8} {b : Bool}
    (ha : Allocated s s' permissions) (hb : permissions &&& 1 = rightByte b)
    (hring : RingInv s' (ps ++ [s.blocks s.mallocs])) :
    RightsInv s' (ps ++ [s.blocks s.mallocs]) (rights ++ [b]) := by
  obtain ⟨t, htasks, -, htoken⟩ := ha.tasks
  have hmallocs := ha.mallocs
  have hnew : (s'.tasks (s'.nodes (s.blocks s.mallocs)).task).token = s.blocks (s.mallocs + 3) := by
    rw [ha.newNode, htasks, Function.update_self, htoken]
  refine { toRingInv := hring, token := fun p hp => ?_, rights := ?_ }
  · rw [ha.blocks]
    rcases List.mem_append.mp hp with hp | hp
    · obtain ⟨i, hi, heq⟩ := h.token p hp
      exact ⟨i, by omega, by rw [(h.old ha hp).1, heq]⟩
    · rw [List.mem_singleton.mp hp]
      exact ⟨s.mallocs + 3, by omega, hnew⟩
  · have hold : ps.map s'.right = ps.map s.right :=
      List.map_congr_left fun p hp => (h.old ha hp).2
    rw [List.map_append, List.map_append, hold, h.rights]
    simp only [List.map_cons, List.map_nil, State.right, hnew, ha.token, hb]

theorem RightsInv.switch (h : RightsInv s ps rights) (rsp : ℕ) :
    RightsInv (kernelSwitchProcess s rsp) ps rights := by
  have hring := (h.toRingInv.switch rsp).1
  rcases kernelSwitchProcess_spec s rsp with ⟨heq, -⟩ | ⟨-, -, prev, t, cr3, heq, -, htoken⟩
  · rw [heq]
    exact h
  · rw [heq] at hring ⊢
    -- the only task written keeps its token
    have hsame : ∀ p, (Function.update s.tasks (s.nodes s.currentTask).task t
        (s.nodes p).task).token = (s.tasks (s.nodes p).task).token := by
      intro p
      rcases eq_or_ne (s.nodes p).task (s.nodes s.currentTask).task with htask | htask
      · rw [htask, Function.update_self, htoken]
      · rw [Function.update_of_ne htask]
    refine { toRingInv := hring, token := fun p hp => ?_, rights := ?_ }
    · obtain ⟨i, hi, htok⟩ := h.token p hp
      exact ⟨i, hi, (hsame p).trans htok⟩
    · rw [← h.rights]
      refine List.map_congr_left fun p _ => ?_
      simp only [State.right, hsame]

/-! ## Reading a token -/

theorem pidValue_inj {a b : BitVec 32} : pidValue a = pidValue b ↔ a = b := by
  simp only [pidValue, BitVec.toNat_inj]
  constructor
  · intro h
    have hint := congrArg BitVec.toInt h
    rw [BitVec.toInt_signExtend_of_le (by decide), BitVec.toInt_signExtend_of_le (by decide)] at hint
    exact BitVec.eq_of_toInt_eq hint
  · rintro rfl
    rfl

/-- Identifiers repeat after `2 ^ 32` processes. -/
theorem pidValue_eq_iff {i j : ℕ} :
    pidValue (BitVec.ofNat 32 (i + 1)) = pidValue (BitVec.ofNat 32 (j + 1)) ↔
      i % 2 ^ 32 = j % 2 ^ 32 := by
  rw [pidValue_inj, ← BitVec.toNat_inj, BitVec.toNat_ofNat, BitVec.toNat_ofNat]
  omega

theorem pidValue_eq_zero_iff {i : ℕ} :
    pidValue (BitVec.ofNat 32 (i + 1)) = 0 ↔ (i + 1) % 2 ^ 32 = 0 := by
  have hzero : pidValue 0 = 0 := by decide
  rw [← hzero, pidValue_inj, ← BitVec.toNat_inj, BitVec.toNat_ofNat]
  rfl

/-- The identifier of the process at a place of the ring. -/
theorem RingInv.id_at (h : RingInv s ps) {i p : ℕ} (hp : ps[i]? = some p) :
    (s.tasks (s.nodes p).task).id = pidValue (BitVec.ofNat 32 (i + 1)) := by
  obtain ⟨hlt, rfl⟩ := List.getElem?_eq_some_iff.mp hp
  have hids := congrArg (fun l => l[i]?) h.ids
  simpa [hlt] using hids

/-- `find_process` stops at the first process with the identifier. -/
theorem RingInv.findNode_at (h : RingInv s ps) (hfuel : ps.length ≤ fuel) {i p q : ℕ}
    (hp : ps[i]? = some p) (hq : ps[i % 2 ^ 32]? = some q) :
    Kernel.findNode fuel s (s.tasks (s.nodes p).task).id = some q := by
  have hmem : q ∈ ps := List.mem_of_getElem? hq
  have hlt := (List.getElem?_eq_some_iff.mp hq).1
  have hsplit : ps = ps.take (i % 2 ^ 32) ++ q :: ps.drop (i % 2 ^ 32 + 1) := by
    conv_lhs => rw [← List.take_append_drop (i % 2 ^ 32) ps]
    rw [List.drop_eq_getElem_cons hlt, (List.getElem?_eq_some_iff.mp hq).2]
  have hchain := h.chain (List.ne_nil_of_mem hmem)
  rw [hsplit] at hchain
  obtain ⟨b, hinit, rfl, -⟩ := chain_append.mp hchain
  refine walk_of_chain hinit ?_ (fun x hx => ?_) ?_
  · have hid : (s.tasks (s.nodes b).task).id = (s.tasks (s.nodes p).task).id := by
      rw [h.id_at hq, h.id_at hp, pidValue_eq_iff, Nat.mod_mod]
    simp [hid]
  · obtain ⟨j, hj⟩ := List.mem_iff_getElem?.mp hx
    have hji : j < i % 2 ^ 32 := by
      by_contra hle
      rw [List.getElem?_take, if_neg hle] at hj
      exact absurd hj (by simp)
    rw [List.getElem?_take_of_lt hji] at hj
    have hne : (s.tasks (s.nodes x).task).id ≠ (s.tasks (s.nodes p).task).id := by
      rw [h.id_at hj, h.id_at hp]
      intro heq
      have := pidValue_eq_iff.mp heq
      omega
    simpa [hne] using h.nonnull (List.mem_of_getElem? hj)
  · rw [List.length_take]
    omega

/-- The check denies the process created `i`-th: its identifier is not 0, which stands for the
kernel, and the first process with this identifier was created without the permission. -/
def Denied (rights : List Bool) (i : ℕ) : Prop :=
  (i + 1) % 2 ^ 32 ≠ 0 ∧ rights[i % 2 ^ 32]? = some false

instance (rights : List Bool) (i : ℕ) : Decidable (Denied rights i) :=
  inferInstanceAs (Decidable (_ ∧ _))

/-- **Check of the permission** by the current process: it passes if its identifier stands for the kernel,
and is that of the first process with the identifier otherwise. -/
theorem RightsInv.kernelCheckToken_eq (h : RightsInv s ps rights) (hfuel : ps.length ≤ fuel) {i : ℕ}
    (hi : ps[i]? = some s.currentTask) :
    ∃ b, rights[i % 2 ^ 32]? = some b ∧
      Kernel.kernelCheckToken fuel s 1 = some (if (i + 1) % 2 ^ 32 = 0 ∨ b = true then 1 else 0) := by
  have hcurrent : s.currentTask ≠ 0 := h.nonnull (List.mem_of_getElem? hi)
  have hid : getCurrentProcessId s = pidValue (BitVec.ofNat 32 (i + 1)) := by
    rw [getCurrentProcessId, if_neg hcurrent, h.id_at hi]
  -- the process whose token is read
  have hlt : i % 2 ^ 32 < ps.length :=
    (Nat.mod_le _ _).trans_lt (List.getElem?_eq_some_iff.mp hi).1
  have hq : ps[i % 2 ^ 32]? = some ps[i % 2 ^ 32] := List.getElem?_eq_getElem hlt
  generalize ps[i % 2 ^ 32] = q at hq
  have hmem : q ∈ ps := List.mem_of_getElem? hq
  have hfind := h.findNode_at hfuel hi hq
  rw [h.id_at hi] at hfind
  obtain ⟨j, -, htask⟩ := h.task q hmem
  have htask0 : (s.nodes q).task ≠ 0 := htask ▸ h.blocks.nonnull j
  obtain ⟨b, hb⟩ : ∃ b, rights[i % 2 ^ 32]? = some b :=
    ⟨_, List.getElem?_eq_getElem (h.length ▸ hlt)⟩
  have hright : (s.tokens (s.tasks (s.nodes q).task).token).canAccessRoot = rightByte b := by
    have hrights : (ps.map s.right)[i % 2 ^ 32]? = (rights.map rightByte)[i % 2 ^ 32]? := by
      rw [h.rights]
    rw [List.getElem?_map, List.getElem?_map, hq, hb] at hrights
    exact Option.some.inj hrights
  refine ⟨b, hb, ?_⟩
  simp only [Kernel.kernelCheckToken, hid]
  by_cases hzero : (i + 1) % 2 ^ 32 = 0
  · rw [if_pos (pidValue_eq_zero_iff.mpr hzero), if_pos (.inl hzero)]
  · rw [if_neg fun heq => hzero (pidValue_eq_zero_iff.mp heq)]
    simp only [findProcess, hfind, Option.map_some, if_neg (h.nonnull hmem), Option.bind_eq_bind,
      Option.bind_some, if_neg htask0, hright, rightByte_and, hzero, false_or]
    split_ifs
    · rfl
    · rfl

theorem RightsInv.kernelCheckToken (h : RightsInv s ps rights) (hfuel : ps.length ≤ fuel) {i : ℕ}
    (hi : ps[i]? = some s.currentTask) :
    Kernel.kernelCheckToken fuel s 1 = some 0 ↔ Denied rights i := by
  obtain ⟨b, hb, hcheck⟩ := h.kernelCheckToken_eq hfuel hi
  rw [hcheck, Denied, hb]
  split_ifs with hpass
  · refine iff_of_false (by decide) fun ⟨hzero, hdenied⟩ => ?_
    exact absurd (hpass.resolve_left hzero) (by simp [Option.some.inj hdenied])
  · obtain ⟨hzero, hdenied⟩ := not_or.mp hpass
    exact iff_of_true rfl ⟨hzero, congrArg some (Bool.eq_false_iff.mpr hdenied)⟩

/-! ## Lineage -/

/-- A kernel with the permissions its processes were created with, in the order of creation, and
the nodes of the processes of unprivileged lineage. -/
structure Lineage where
  kernel : State
  rights : List Bool
  unprivileged : List ℕ

/-- The call creates a process of unprivileged lineage. -/
def Lineage.Extends (l : Lineage) : TaskCall → Prop
  | .initializeProcess _ permissions => permissions % 2 = 0
  | .cloneProcess _ _ => l.kernel.currentTask ∈ l.unprivileged
  | .switchProcess _ => False

instance (l : Lineage) : (c : TaskCall) → Decidable (l.Extends c)
  | .initializeProcess _ _ => inferInstanceAs (Decidable (_ = _))
  | .cloneProcess _ _ => inferInstanceAs (Decidable (_ ∈ _))
  | .switchProcess _ => .isFalse id

def Lineage.step (P : Mmu.Platform) (fuel resumeUser : ℕ) (l : Lineage) (c : TaskCall) :
    Lineage where
  kernel := c.step P fuel resumeUser l.kernel
  rights := if c.creates then l.rights ++ [c.right] else l.rights
  unprivileged :=
    if l.Extends c then l.unprivileged ++ [l.kernel.blocks l.kernel.mallocs] else l.unprivileged

/-- While a process of unprivileged lineage is current, the check of the permission denies it. -/
def Lineage.Confined (fuel : ℕ) (l : Lineage) : Prop :=
  l.kernel.currentTask ∈ l.unprivileged → kernelCheckToken fuel l.kernel 1 = some 0

instance (fuel : ℕ) (l : Lineage) : Decidable (l.Confined fuel) :=
  inferInstanceAs (Decidable (_ → _))

/-- A new process of unprivileged lineage is denied the permission. -/
def Lineage.Kept (l : Lineage) (c : TaskCall) : Prop :=
  l.Extends c → Denied (l.rights ++ [c.right]) l.rights.length

instance (l : Lineage) (c : TaskCall) : Decidable (l.Kept c) :=
  inferInstanceAs (Decidable (_ → _))

/-- Before the identifiers repeat, the calls to avoid are clones of unprivileged processes. -/
theorem Lineage.kept_iff (l : Lineage) (hfew : l.rights.length + 1 < 2 ^ 32) (c : TaskCall) :
    l.Kept c ↔ ∀ rip ursp, c = .cloneProcess rip ursp → l.kernel.currentTask ∉ l.unprivileged := by
  have hdenied : Denied (l.rights ++ [c.right]) l.rights.length ↔ c.right = false := by
    rw [Denied, Nat.mod_eq_of_lt hfew, Nat.mod_eq_of_lt (by omega), List.getElem?_concat_length]
    simp
  rw [Lineage.Kept, hdenied]
  cases c with
  | initializeProcess rip permissions => simp [Lineage.Extends, TaskCall.right]
  | cloneProcess rip ursp => simp [Lineage.Extends, TaskCall.right]
  | switchProcess rsp => simp [Lineage.Extends]

/-- The ring, its permissions, and the processes of unprivileged lineage as part of it. -/
structure LineageInv (l : Lineage) (ps : List ℕ) : Prop
    extends RightsInv l.kernel ps l.rights where
  lineage : ∀ p ∈ l.unprivileged, p ∈ ps

/-- Every process of unprivileged lineage is denied the permission. -/
def Lineage.AllDenied (l : Lineage) (ps : List ℕ) : Prop :=
  ∀ i p, ps[i]? = some p → p ∈ l.unprivileged → Denied l.rights i

variable {l : Lineage}

/-- What a call that creates a process does to the records. -/
theorem TaskCall.allocated (hc : c.creates) (hret : c.Returns P fuel resumeUser s) :
    ∃ permissions, Allocated s (c.step P fuel resumeUser s) permissions ∧
      permissions &&& 1 = rightByte c.right := by
  obtain ⟨s', hresult⟩ := Option.isSome_iff_exists.mp hret
  have hstep : c.step P fuel resumeUser s = s' := by rw [TaskCall.step, hresult]; rfl
  rw [hstep]
  cases c with
  | initializeProcess rip permissions =>
    refine ⟨UInt8.ofNat permissions, ?_, rightByte_ofNat permissions⟩
    by_cases hfirst : s.firstTask = 0
    · exact (initializeFirst_spec hfirst hresult).allocated
    · exact (initializeNext_spec hfirst hresult).allocated
  | cloneProcess rip ursp =>
    obtain ⟨⟨id, s₁⟩, hclone, rfl⟩ := Option.map_eq_some_iff.mp hresult
    obtain ⟨-, -, hcreated⟩ := kernelCloneProcess_spec hclone
    exact ⟨1, hcreated.allocated, rfl⟩
  | switchProcess rsp => exact absurd hc (by simp [TaskCall.creates])

theorem Lineage.not_extends (hc : ¬ c.creates) : ¬ l.Extends c := by
  cases c with
  | initializeProcess rip permissions => exact absurd rfl hc
  | cloneProcess rip ursp => exact absurd rfl hc
  | switchProcess rsp => exact id

/-- **Step lemma** of the permissions: one more for a new process. -/
theorem RightsInv.step (h : RightsInv s ps rights) (hret : c.Returns P fuel resumeUser s) :
    RightsInv (c.step P fuel resumeUser s)
      (if c.creates then ps ++ [s.blocks s.mallocs] else ps)
      (if c.creates then rights ++ [c.right] else rights) := by
  have hring := (h.toRingInv.step hret).1
  by_cases hc : c.creates
  · rw [if_pos hc] at hring ⊢
    rw [if_pos hc]
    obtain ⟨permissions, ha, hb⟩ := TaskCall.allocated hc hret
    exact h.append ha hb hring
  · rw [if_neg hc, if_neg hc]
    cases c with
    | initializeProcess rip permissions => exact absurd rfl hc
    | cloneProcess rip ursp => exact absurd rfl hc
    | switchProcess rsp => exact h.switch rsp

/-- **Step lemma.** -/
theorem LineageInv.step (h : LineageInv l ps) (hret : c.Returns P fuel resumeUser l.kernel) :
    LineageInv (l.step P fuel resumeUser c)
      (if c.creates then ps ++ [l.kernel.blocks l.kernel.mallocs] else ps) := by
  refine { toRightsInv := h.toRightsInv.step hret, lineage := fun p hp => ?_ }
  simp only [Lineage.step] at hp
  split_ifs at hp with hextends
  · have hc : c.creates := by_contra fun hc => Lineage.not_extends hc hextends
    rw [if_pos hc]
    rcases List.mem_append.mp hp with hp | hp
    · exact List.mem_append_left _ (h.lineage p hp)
    · exact List.mem_append_right _ hp
  · split_ifs
    · exact List.mem_append_left _ (h.lineage p hp)
    · exact h.lineage p hp

/-- A denial looks at the permissions of the processes up to its own. -/
theorem denied_append {b : Bool} {i : ℕ} (hi : i < rights.length) :
    Denied (rights ++ [b]) i ↔ Denied rights i := by
  rw [Denied, Denied, List.getElem?_append_left ((Nat.mod_le _ _).trans_lt hi)]

/-- **What a step adds**: every process stays denied iff the new one is. -/
theorem LineageInv.allDenied_step (h : LineageInv l ps) :
    (l.step P fuel resumeUser c).AllDenied
      (if c.creates then ps ++ [l.kernel.blocks l.kernel.mallocs] else ps) ↔
      l.AllDenied ps ∧ l.Kept c := by
  by_cases hc : c.creates
  · simp only [Lineage.AllDenied, Lineage.step, if_pos hc]
    have hfresh : l.kernel.blocks l.kernel.mallocs ∉ ps := fun hmem => h.node_ne hmem le_rfl rfl
    have hnew : (ps ++ [l.kernel.blocks l.kernel.mallocs])[l.rights.length]? =
        some (l.kernel.blocks l.kernel.mallocs) := by
      rw [h.length, List.getElem?_concat_length]
    -- the new process is of unprivileged lineage iff the call extends it, the others as before
    have hmem_new : l.kernel.blocks l.kernel.mallocs ∈ (if l.Extends c then
        l.unprivileged ++ [l.kernel.blocks l.kernel.mallocs] else l.unprivileged) ↔
        l.Extends c := by
      split_ifs with hextends
      · exact iff_of_true (by simp) hextends
      · exact iff_of_false (fun hmem => hfresh (h.lineage _ hmem)) hextends
    have hmem_old : ∀ p ∈ ps, (p ∈ (if l.Extends c then
        l.unprivileged ++ [l.kernel.blocks l.kernel.mallocs] else l.unprivileged) ↔
        p ∈ l.unprivileged) := by
      intro p hp
      have hne : p ≠ l.kernel.blocks l.kernel.mallocs := h.node_ne hp le_rfl
      split_ifs <;> simp [hne]
    constructor
    · intro hall
      refine ⟨fun i p hp hunpriv => ?_, fun hextends => hall _ _ hnew (hmem_new.mpr hextends)⟩
      have hlt : i < ps.length := (List.getElem?_eq_some_iff.mp hp).1
      refine (denied_append (h.length ▸ hlt)).mp (hall i p ?_ ?_)
      · rw [List.getElem?_append_left hlt, hp]
      · exact (hmem_old p (List.mem_of_getElem? hp)).mpr hunpriv
    · rintro ⟨hall, hkept⟩ i p hp hunpriv
      rcases lt_trichotomy i ps.length with hlt | rfl | hgt
      · rw [List.getElem?_append_left hlt] at hp
        refine (denied_append (h.length ▸ hlt)).mpr (hall i p hp ?_)
        exact (hmem_old p (List.mem_of_getElem? hp)).mp hunpriv
      · rw [List.getElem?_concat_length] at hp
        obtain rfl := Option.some.inj hp
        rw [← h.length]
        exact hkept (hmem_new.mp hunpriv)
      · have hlt := (List.getElem?_eq_some_iff.mp hp).1
        rw [List.length_append, List.length_singleton] at hlt
        omega
  · simp only [Lineage.AllDenied, Lineage.step, if_neg hc, if_neg (Lineage.not_extends hc)]
    exact (and_iff_left fun hextends => absurd hextends (Lineage.not_extends hc)).symm

/-! ## Whole runs -/

/-- **Run lemma**: after calls that return, every process of unprivileged lineage is denied the
permission iff every call kept it so. -/
theorem LineageInv.run (h : LineageInv l ps) {calls : List TaskCall}
    (hret : Along (Lineage.step P fuel resumeUser)
      (fun l c => c.Returns P fuel resumeUser l.kernel) l calls) :
    ∃ qs, LineageInv (Lib.run (Lineage.step P fuel resumeUser) l calls) (ps ++ qs) ∧
      qs.length = calls.countP TaskCall.creates ∧
      ((Lib.run (Lineage.step P fuel resumeUser) l calls).AllDenied (ps ++ qs) ↔
        l.AllDenied ps ∧ Along (Lineage.step P fuel resumeUser) Lineage.Kept l calls) := by
  induction calls generalizing l ps with
  | nil => exact ⟨[], by simpa using h, rfl, by simp [Along]⟩
  | cons c calls ih =>
    obtain ⟨hc, hcalls⟩ := hret
    have hiff : (l.step P fuel resumeUser c).AllDenied _ ↔ _ := h.allDenied_step
    obtain ⟨qs, hinv, hlen, hall⟩ := ih (h.step hc) hcalls
    rw [hiff, and_assoc] at hall
    by_cases hcreates : c.creates = true
    · rw [if_pos hcreates, List.append_assoc] at hinv hall
      refine ⟨_, hinv, ?_, hall⟩
      rw [List.countP_cons_of_pos hcreates, List.singleton_append, List.length_cons, hlen]
    · rw [if_neg hcreates] at hinv hall
      exact ⟨qs, hinv, by rw [List.countP_cons_of_neg hcreates, hlen], hall⟩

/-- Switches go on from any state without creating a process. -/
theorem Lineage.switches (P : Mmu.Platform) (fuel resumeUser : ℕ) (l : Lineage) (rsps : List ℕ) :
    Along (Lineage.step P fuel resumeUser) (fun l c => c.Returns P fuel resumeUser l.kernel ∧
      l.Kept c) l (rsps.map .switchProcess) ∧
    (rsps.map TaskCall.switchProcess).countP TaskCall.creates = 0 ∧
    (Lib.run (Lineage.step P fuel resumeUser) l (rsps.map .switchProcess)).rights = l.rights ∧
    (Lib.run (Lineage.step P fuel resumeUser) l (rsps.map .switchProcess)).unprivileged =
      l.unprivileged := by
  induction rsps generalizing l with
  | nil => exact ⟨trivial, rfl, rfl, rfl⟩
  | cons rsp rsps ih =>
    obtain ⟨hrun, hcount, hrights, hunpriv⟩ := ih (l.step P fuel resumeUser (.switchProcess rsp))
    exact ⟨⟨⟨rfl, fun hextends => absurd hextends id⟩, hrun⟩, hcount, hrights, hunpriv⟩

/-- A process that a lap comes to is current after some switches. -/
theorem Lineage.exists_switches (P : Mmu.Platform) (fuel resumeUser : ℕ) {rsps : List ℕ} {p : ℕ}
    (hp : p ∈ lap l.kernel rsps) :
    ∃ pre : List ℕ, (Lib.run (Lineage.step P fuel resumeUser) l
      (pre.map .switchProcess)).kernel.currentTask = p := by
  induction rsps generalizing l with
  | nil => exact absurd hp List.not_mem_nil
  | cons rsp rsps ih =>
    rcases List.mem_cons.mp hp with rfl | hp
    · exact ⟨[rsp], rfl⟩
    · obtain ⟨pre, hpre⟩ := ih (l := l.step P fuel resumeUser (.switchProcess rsp)) hp
      exact ⟨rsp :: pre, hpre⟩

/-- **Clones and privileges**: the check of the permission denies the current process of
unprivileged lineage, in every state of a run and however the scheduler goes on from it, iff no
call of the run creates such a process with the permission. -/
theorem confined_iff_along_kept (hstart : Start s) {calls : List TaskCall}
    (hfuel : calls.length ≤ fuel)
    (hret : Along (Lineage.step P fuel resumeUser)
      (fun l c => c.Returns P fuel resumeUser l.kernel) ⟨s, [], []⟩ calls) :
    (∀ rsps : List ℕ, Everywhere (Lineage.step P fuel resumeUser) (Lineage.Confined fuel)
      ⟨s, [], []⟩ (calls ++ rsps.map .switchProcess)) ↔
      Along (Lineage.step P fuel resumeUser) Lineage.Kept ⟨s, [], []⟩ calls := by
  have hinit : LineageInv ⟨s, [], []⟩ [] :=
    { toRightsInv := RightsInv.start hstart, lineage := fun p hp => absurd hp List.not_mem_nil }
  have hdenied : Lineage.AllDenied ⟨s, [], []⟩ [] := fun i p hp => absurd hp (by simp)
  constructor
  · intro hall
    obtain ⟨ps, hinv, hlen, hiff⟩ := hinit.run hret
    refine (hiff.mp fun i p hp hunpriv => ?_).2
    rw [List.nil_append] at hinv hp
    have hmem : p ∈ ps := List.mem_of_getElem? hp
    -- switch on to the process and look at the check there
    obtain ⟨pre, post, hsplit⟩ := List.append_of_mem (hinv.current (List.ne_nil_of_mem hmem))
    have hlap : lap _ (List.replicate ps.length 0) = _ := hinv.lap_rotation hsplit (by simp)
    have hp_lap : p ∈ lap (Lib.run (Lineage.step P fuel resumeUser) ⟨s, [], []⟩ calls).kernel
        (List.replicate ps.length 0) := by
      rw [hlap]
      rw [hsplit] at hmem
      simp only [List.mem_append, List.mem_cons, List.not_mem_nil, or_false] at hmem ⊢
      tauto
    obtain ⟨rsps, hcurrent⟩ := Lineage.exists_switches P fuel resumeUser hp_lap
    obtain ⟨hswitch, hcount, hrights, hunprivileged⟩ := Lineage.switches P fuel resumeUser
      (Lib.run (Lineage.step P fuel resumeUser) ⟨s, [], []⟩ calls) rsps
    obtain ⟨qs, hinv', hlen', -⟩ := hinv.run (along_and.mp hswitch).1
    obtain rfl : qs = [] := List.length_eq_zero_iff.mp (hlen'.trans hcount)
    rw [List.append_nil] at hinv'
    have hconfined := (hall rsps).last
    rw [run_append] at hconfined
    have hcheck := hconfined (by rw [hcurrent, hunprivileged]; exact hunpriv)
    rw [hinv'.kernelCheckToken _ (by rw [hcurrent]; exact hp), hrights] at hcheck
    · exact hcheck
    · exact hlen.trans_le (List.countP_le_length.trans hfuel)
  · intro hkept rsps
    obtain ⟨hswitch, hcount, -⟩ := Lineage.switches P fuel resumeUser
      (Lib.run (Lineage.step P fuel resumeUser) ⟨s, [], []⟩ calls) rsps
    have hboth := along_append.mpr ⟨along_and.mpr ⟨hret, hkept⟩, hswitch⟩
    refine everywhere_iff_prefix.mpr fun pre hpre hcurrent => ?_
    obtain ⟨rest, hrest⟩ := hpre
    rw [← hrest] at hboth
    obtain ⟨hret', hkept'⟩ := along_and.mp (along_append.mp hboth).1
    obtain ⟨ps, hinv, hlen, hiff⟩ := hinit.run hret'
    rw [List.nil_append] at hinv hiff
    have hps : ps.length ≤ fuel := by
      have hcountP := congrArg (List.countP TaskCall.creates) hrest
      rw [List.countP_append, List.countP_append, hcount] at hcountP
      have hle : calls.countP TaskCall.creates ≤ calls.length := List.countP_le_length
      omega
    obtain ⟨i, hi⟩ := List.mem_iff_getElem?.mp (hinv.lineage _ hcurrent)
    exact (hinv.kernelCheckToken hps hi).mpr (hiff.mpr ⟨hdenied, hkept'⟩ i _ hi hcurrent)

/-- An unprivileged process beside a privileged one, which is cloned. -/
theorem confined_boot :
    Everywhere (Lineage.step Mmu.bootPlatform 8 0xFFFFFFFF80001000) (Lineage.Confined 8)
      ⟨bootKernel, [], []⟩
      ([.initializeProcess 0x1000 1, .initializeProcess 0x2000 0, .cloneProcess 0x3000 0x7000] ++
        [0, 0, 0].map .switchProcess) := by
  have hrun : Along (Lineage.step Mmu.bootPlatform 8 0xFFFFFFFF80001000)
      (fun l c => c.Returns Mmu.bootPlatform 8 0xFFFFFFFF80001000 l.kernel ∧ l.Kept c)
      ⟨bootKernel, [], []⟩
      [.initializeProcess 0x1000 1, .initializeProcess 0x2000 0,
        .cloneProcess 0x3000 0x7000] := by decide
  obtain ⟨hret, hkept⟩ := along_and.mp hrun
  exact (confined_iff_along_kept bootKernel_start (by decide) hret).mpr hkept [0, 0, 0]

/-- The clone of an unprivileged process has the permission. -/
theorem clone_escalates :
    Along (Lineage.step Mmu.bootPlatform 8 0xFFFFFFFF80001000)
      (fun l c => c.Returns Mmu.bootPlatform 8 0xFFFFFFFF80001000 l.kernel) ⟨bootKernel, [], []⟩
      [.initializeProcess 0 1, .initializeProcess 0x2000 0, .switchProcess 0,
        .cloneProcess 0x3000 0x7000, .switchProcess 0] ∧
    ¬ Everywhere (Lineage.step Mmu.bootPlatform 8 0xFFFFFFFF80001000) (Lineage.Confined 8)
      ⟨bootKernel, [], []⟩
      [.initializeProcess 0 1, .initializeProcess 0x2000 0, .switchProcess 0,
        .cloneProcess 0x3000 0x7000, .switchProcess 0] ∧
    kernelCheckToken 8 (run (TaskCall.step Mmu.bootPlatform 8 0xFFFFFFFF80001000) bootKernel
      [.initializeProcess 0 1, .initializeProcess 0x2000 0, .switchProcess 0,
        .cloneProcess 0x3000 0x7000, .switchProcess 0]) 1 = some 1 := by
  decide

end Cutesugar.Kernel
