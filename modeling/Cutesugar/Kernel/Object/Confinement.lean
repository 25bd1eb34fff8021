import Cutesugar.Kernel.Arch.TaskPrivilege
import Cutesugar.Kernel.Object.Namespace

/-!
# Confinement

A process without the permission gets no root object, so the single dot takes it back to its
working directory, and everything it names lies below the working directory it started from.

## Structure

- `resolveObjectName_reach`, `resolveObjectName_congr`: one resolution, in terms of the part of
  the namespace below a directory.
- `NameCall`: runs of resolutions and changes of the working directory.
- `confinement`: what such a run returns.
-/

namespace Cutesugar.Kernel

open Lib Libc

variable {s n : State} {ps : List ℕ} {d c o fuel depth : ℕ}

/-! ## The permission -/

/-- The check reads identifiers and tokens. -/
theorem kernelCheckToken_congr {s' : State} (hnodes : s'.nodes = s.nodes)
    (hfirst : s'.firstTask = s.firstTask) (hcurrent : s'.currentTask = s.currentTask)
    (htokens : s'.tokens = s.tokens) (hid : ∀ p, (s'.tasks p).id = (s.tasks p).id)
    (htoken : ∀ p, (s'.tasks p).token = (s.tasks p).token) (permission : UInt8) :
    kernelCheckToken fuel s' permission = kernelCheckToken fuel s permission := by
  have hown : getCurrentProcessId s' = getCurrentProcessId s := by
    rw [getCurrentProcessId, getCurrentProcessId, hcurrent, hnodes, hid]
  have hfind : ∀ id, findProcess fuel s' id = findProcess fuel s id := by
    intro id
    simp only [findProcess, findNode, hnodes, hfirst, hid]
  simp only [kernelCheckToken, hown, hfind, htokens, htoken]

theorem objGetRootObject_denied (h : kernelCheckToken fuel s 1 = some 0) :
    objGetRootObject fuel s = some 0 := by
  rw [objGetRootObject, h]
  rfl

/-- While identifiers do not repeat, the check reads the token of the current process. -/
theorem RingInv.kernelCheckToken_denied (h : RingInv s ps) (hfuel : ps.length ≤ fuel)
    (hfew : ps.length < 2 ^ 32) (hcurrent : s.currentTask ≠ 0)
    (htoken : s.right s.currentTask &&& 1 = 0) : Kernel.kernelCheckToken fuel s 1 = some 0 := by
  have hmem : s.currentTask ∈ ps := h.current fun hnil => hcurrent (h.empty hnil).2
  obtain ⟨i, hi⟩ := List.mem_iff_getElem?.mp hmem
  have hlt : i < ps.length := (List.getElem?_eq_some_iff.mp hi).1
  have hown : ps[i % 2 ^ 32]? = some s.currentTask := by
    rw [Nat.mod_eq_of_lt (hlt.trans hfew), hi]
  have hfind := h.findNode_at hfuel hi hown
  have hid : (s.tasks (s.nodes s.currentTask).task).id ≠ 0 := by
    rw [h.id_at hi]
    intro hzero
    have := pidValue_eq_zero_iff.mp hzero
    omega
  obtain ⟨j, -, htask⟩ := h.task _ hmem
  have htask0 : (s.nodes s.currentTask).task ≠ 0 := htask ▸ h.blocks.nonnull j
  rw [State.right] at htoken
  simp only [Kernel.kernelCheckToken, getCurrentProcessId, if_neg hcurrent, if_neg hid,
    findProcess, hfind, Option.map_some, Option.bind_eq_bind, Option.bind_some, if_neg htask0,
    htoken]
  rfl

/-! ## One resolution -/

/-- **Reach**: whatever an unprivileged process names from a directory below `d` lies below
`d`. -/
theorem resolveObjectName_reach (hdenied : kernelCheckToken fuel s 1 = some 0)
    (hcwd : currentCwd s = .ok c) (hc : Reach s d c) (hctype : (s.objects c).header.type = 1)
    {root : ℕ} (hroot : root ≠ 0 → Reach s d root ∧ (s.objects root).header.type = 1)
    {name : Option (List UInt8)} (h : resolveObjectName fuel s depth root name = .ok o)
    (ho : o ≠ 0) : Reach s d o := by
  induction depth generalizing root name with
  | zero =>
    cases name with
    | none => exact absurd (Except.ok.inj h).symm ho
    | some name => exact absurd h (by simp [resolveObjectName])
  | succ depth ih =>
    cases name with
    | none => exact absurd (Except.ok.inj h).symm ho
    | some name =>
      -- the directory the search starts from
      obtain ⟨r, hr, hreach, htype⟩ : ∃ r, startDirectory s root = .ok r ∧ Reach s d r ∧
          (s.objects r).header.type = 1 := by
        by_cases hzero : root = 0
        · exact ⟨c, by rw [startDirectory, if_pos hzero, hcwd], hc, hctype⟩
        · exact ⟨root, by rw [startDirectory, if_neg hzero], hroot hzero⟩
      rw [resolveObjectName, hr] at h
      simp only [bind, Except.bind] at h
      cases hsplit : splitName name with
      | error e => simp [hsplit] at h
      | ok parts =>
        rw [hsplit] at h
        cases parts with
        | none => exact absurd (Except.ok.inj h).symm ho
        | some parts =>
          obtain ⟨objName, remaining⟩ := parts
          simp only at h
          cases hdot : strncmp objName [46, 0] 32 with
          | error e => simp [hdot] at h
          | ok order =>
            simp only [hdot] at h
            split_ifs at h with horder hnull
            · -- the dot: the root object is denied
              rw [objGetRootObject_denied hdenied] at h
              exact ih (fun hne => absurd rfl hne) h
            · cases hfind : findChild s objName fuel (s.objects r).headerList with
              | error e => simp [hfind] at h
              | ok t =>
                simp only [hfind] at h
                split_ifs at h with ht hrest
                · exact absurd (Except.ok.inj h).symm ho
                · have hnode := findChild_listNode (splitName_length hsplit).1 hfind ht
                  have hitem : Reach s d (s.lists t).item := hreach.tail ⟨htype, t, hnode, rfl⟩
                  exact ih (fun _ => ⟨hitem, hrest.2⟩) h
                · have hnode := findChild_listNode (splitName_length hsplit).1 hfind ht
                  obtain rfl := Except.ok.inj h
                  exact hreach.tail ⟨htype, t, hnode, rfl⟩

/-- The kernel with the namespace of another one. -/
def State.withNamespace (s n : State) : State :=
  { s with objects := n.objects, lists := n.lists, rootObject := n.rootObject }

/-- Two namespaces agree on what lies below `d`: on the objects, and on the header lists of the
directories. -/
structure Agree (s n : State) (d : ℕ) : Prop where
  objects : ∀ o, Reach s d o → n.objects o = s.objects o
  lists : ∀ o t, Reach s d o → (s.objects o).header.type = 1 → ListNode s o t →
    n.lists t = s.lists t

/-- The search in a directory below `d`. -/
theorem Agree.findChild (h : Agree s n d) {r : ℕ} (hr : Reach s d r)
    (htype : (s.objects r).header.type = 1) (objName : List UInt8) :
    findChild (s.withNamespace n) objName fuel ((s.withNamespace n).objects r).headerList =
      Kernel.findChild s objName fuel (s.objects r).headerList := by
  have hhead : ((s.withNamespace n).objects r).headerList = (s.objects r).headerList := by
    rw [State.withNamespace, h.objects r hr]
  rw [hhead]
  refine findChild_congr (d := r) (fun t ht => h.lists r t hr htype ht) (fun t ht => ?_)
    ListNode.head
  rw [State.withNamespace, h.objects _ (hr.tail ⟨htype, t, ht, rfl⟩)]

/-- **Agreement**: an unprivileged process cannot tell two namespaces apart that agree below
`d`. -/
theorem resolveObjectName_congr (hdenied : kernelCheckToken fuel s 1 = some 0)
    (hcwd : currentCwd s = .ok c) (hc : Reach s d c) (hctype : (s.objects c).header.type = 1)
    (hagree : Agree s n d) {root : ℕ}
    (hroot : root ≠ 0 → Reach s d root ∧ (s.objects root).header.type = 1)
    (name : Option (List UInt8)) :
    resolveObjectName fuel (s.withNamespace n) depth root name =
      resolveObjectName fuel s depth root name := by
  induction depth generalizing root name with
  | zero => cases name <;> rfl
  | succ depth ih =>
    cases name with
    | none => rfl
    | some name =>
      obtain ⟨r, hr, hreach, htype⟩ : ∃ r, startDirectory s root = .ok r ∧ Reach s d r ∧
          (s.objects r).header.type = 1 := by
        by_cases hzero : root = 0
        · exact ⟨c, by rw [startDirectory, if_pos hzero, hcwd], hc, hctype⟩
        · exact ⟨root, by rw [startDirectory, if_neg hzero], hroot hzero⟩
      have hr' : startDirectory (s.withNamespace n) root = .ok r := hr
      have hdenied' : objGetRootObject fuel (s.withNamespace n) = some 0 :=
        objGetRootObject_denied hdenied
      rw [resolveObjectName, resolveObjectName, hr, hr', hdenied', objGetRootObject_denied hdenied]
      simp only [bind, Except.bind]
      cases hsplit : splitName name with
      | error e => rfl
      | ok parts =>
        cases parts with
        | none => rfl
        | some parts =>
          obtain ⟨objName, remaining⟩ := parts
          simp only
          cases hdot : strncmp objName [46, 0] 32 with
          | error e => rfl
          | ok order =>
            simp only [Option.elim]
            split_ifs with horder hnull
            · exact ih (fun hne => absurd rfl hne) _
            · rfl
            · rw [hagree.findChild hreach htype]
              cases hfind : Kernel.findChild s objName fuel (s.objects r).headerList with
              | error e => rfl
              | ok t =>
                simp only
                by_cases ht : t = 0
                · rw [if_pos ht, if_pos ht]
                -- the entry found and its item are the same in both
                have hnode := findChild_listNode (splitName_length hsplit).1 hfind ht
                have hitem : Reach s d (s.lists t).item := hreach.tail ⟨htype, t, hnode, rfl⟩
                have hentry : (s.withNamespace n).lists t = s.lists t :=
                  hagree.lists r t hreach htype hnode
                have hobject : (s.withNamespace n).objects (s.lists t).item =
                    s.objects (s.lists t).item := hagree.objects _ hitem
                rw [if_neg ht, if_neg ht, hentry, hobject]
                split_ifs with hrest
                · exact ih (fun _ => ⟨hitem, hrest.2⟩) _
                · rfl

/-! ## Runs -/

inductive NameCall where
  | resolve (name : Option (List UInt8))
  | changeDirectory (name : Option (List UInt8))

/-- What a call returns. -/
inductive Answer where
  | object (o : ℕ)
  | status (v : ℤ)
  deriving DecidableEq

/-- The call with a null `root`, and the state after it. -/
def NameCall.result (fuel depth : ℕ) (s : State) : NameCall → Except Fault (Answer × State)
  | .resolve name => (resolveObjectName fuel s depth 0 name).map fun o => (.object o, s)
  | .changeDirectory name =>
    (changeWorkingDirectory fuel depth s 0 name).map fun (v, s) => (.status v, s)

def NameCall.step (fuel depth : ℕ) (s : State) (e : NameCall) : State :=
  match e.result fuel depth s with
  | .ok (_, s') => s'
  | .error _ => s

/-- What the calls of a run return, in turn. -/
def answers (fuel depth : ℕ) : State → List NameCall → List (Except Fault Answer)
  | _, [] => []
  | s, e :: es => (e.result fuel depth s).map Prod.fst :: answers fuel depth (e.step fuel depth s) es

/-- The working directory is a directory. -/
def CwdDirectory (s : State) : Prop :=
  getCurrentProcess s ≠ 0 ∧ (s.tasks (getCurrentProcess s)).cwd ≠ 0 ∧
    (s.objects (s.tasks (getCurrentProcess s)).cwd).header.type = 1

instance (s : State) : Decidable (CwdDirectory s) := inferInstanceAs (Decidable (_ ∧ _ ∧ _))

theorem CwdDirectory.currentCwd (h : CwdDirectory s) :
    currentCwd s = .ok (s.tasks (getCurrentProcess s)).cwd := if_neg h.1

/-- **What a call does**: nothing to the state, or a change of the working directory to an
object that resolves. -/
theorem NameCall.result_cases {e : NameCall} {a : Answer} {s' : State}
    (h : e.result fuel depth s = .ok (a, s')) :
    (s' = s ∧ ∀ o, a = .object o →
      ∃ name, resolveObjectName fuel s depth 0 name = .ok o) ∨
    (∃ dir name, resolveObjectName fuel s depth 0 name = .ok dir ∧ dir ≠ 0 ∧ a = .status 0 ∧
      s' = s.setTask (getCurrentProcess s)
        { s.tasks (getCurrentProcess s) with cwd := dir }) := by
  cases e with
  | resolve name =>
    cases hname : resolveObjectName fuel s depth 0 name with
    | error e => simp [NameCall.result, hname, Except.map] at h
    | ok o =>
      simp only [NameCall.result, hname, Except.map] at h
      obtain ⟨rfl, rfl⟩ := Prod.mk.inj (Except.ok.inj h)
      exact .inl ⟨rfl, fun o' ho' => ⟨name, by rw [hname, Answer.object.inj ho']⟩⟩
  | changeDirectory name =>
    cases hname : resolveObjectName fuel s depth 0 name with
    | error e => simp [NameCall.result, changeWorkingDirectory, hname, bind, Except.bind,
        Except.map] at h
    | ok dir =>
      simp only [NameCall.result, changeWorkingDirectory, hname, bind, Except.bind] at h
      by_cases hdir : dir = 0
      · rw [if_pos hdir] at h
        obtain ⟨rfl, rfl⟩ := Prod.mk.inj (Except.ok.inj h)
        exact .inl ⟨rfl, fun o' ho' => absurd ho' (by simp)⟩
      · rw [if_neg hdir] at h
        by_cases hprocess : getCurrentProcess s = 0
        · simp [hprocess, Except.map] at h
        · rw [if_neg hprocess] at h
          obtain ⟨rfl, rfl⟩ := Prod.mk.inj (Except.ok.inj h)
          exact .inr ⟨dir, name, hname, hdir, rfl, rfl⟩

/-- The calls of an unprivileged process in a directory below `d`. -/
structure Unprivileged (fuel : ℕ) (s : State) (d : ℕ) : Prop where
  denied : kernelCheckToken fuel s 1 = some 0
  cwd : CwdDirectory s
  below : Reach s d (s.tasks (getCurrentProcess s)).cwd

/-- What an unprivileged process names lies below `d`. -/
theorem Unprivileged.reach (h : Unprivileged fuel s d) {name : Option (List UInt8)}
    (hname : resolveObjectName fuel s depth 0 name = .ok o) (ho : o ≠ 0) : Reach s d o :=
  resolveObjectName_reach h.denied h.cwd.currentCwd h.below h.cwd.2.2
    (fun hne => absurd rfl hne) hname ho

/-- A new working directory leaves the identifier and the token of every task. -/
theorem setCwd_tasks (s : State) (q dir p : ℕ) :
    ((s.setTask q { s.tasks q with cwd := dir }).tasks p).id = (s.tasks p).id ∧
      ((s.setTask q { s.tasks q with cwd := dir }).tasks p).token = (s.tasks p).token := by
  show (Function.update s.tasks q _ p).id = _ ∧ (Function.update s.tasks q _ p).token = _
  rcases eq_or_ne p q with rfl | hp
  · rw [Function.update_self]
    exact ⟨rfl, rfl⟩
  · rw [Function.update_of_ne hp]
    exact ⟨rfl, rfl⟩

/-- **Step lemma**: the namespace stays, and the process stays below `d` and unprivileged. -/
theorem Unprivileged.step (h : Unprivileged fuel s d) {e : NameCall}
    (hcwd : CwdDirectory (e.step fuel depth s)) :
    Unprivileged fuel (e.step fuel depth s) d ∧ (e.step fuel depth s).objects = s.objects ∧
      (e.step fuel depth s).lists = s.lists := by
  rw [NameCall.step] at hcwd ⊢
  cases hresult : e.result fuel depth s with
  | error _ => exact ⟨h, rfl, rfl⟩
  | ok r =>
    obtain ⟨a, s'⟩ := r
    rw [hresult] at hcwd
    simp only at hcwd ⊢
    rcases NameCall.result_cases hresult with ⟨rfl, -⟩ | ⟨dir, name, hname, hdir, -, rfl⟩
    · exact ⟨h, rfl, rfl⟩
    · refine ⟨{ denied := ?_, cwd := hcwd, below := ?_ }, rfl, rfl⟩
      · rw [← h.denied]
        -- only the working directory of a task is written
        apply kernelCheckToken_congr
        · rfl
        · rfl
        · rfl
        · rfl
        · exact fun p => (setCwd_tasks s _ dir p).1
        · exact fun p => (setCwd_tasks s _ dir p).2
      · show Reach s d (Function.update s.tasks _ _ (getCurrentProcess s)).cwd
        rw [Function.update_self]
        exact h.reach hname hdir

/-- A namespace that agrees goes through a call unnoticed. -/
theorem Unprivileged.result_congr (h : Unprivileged fuel s d) (hagree : Agree s n d)
    (e : NameCall) : e.result fuel depth (s.withNamespace n) =
      (e.result fuel depth s).map fun (a, s') => (a, s'.withNamespace n) := by
  have hname : ∀ name, resolveObjectName fuel (s.withNamespace n) depth 0 name =
      resolveObjectName fuel s depth 0 name :=
    resolveObjectName_congr h.denied h.cwd.currentCwd h.below h.cwd.2.2 hagree
      fun hne => absurd rfl hne
  cases e with
  | resolve name =>
    simp only [NameCall.result, hname]
    cases resolveObjectName fuel s depth 0 name <;> rfl
  | changeDirectory name =>
    have hprocess : getCurrentProcess (s.withNamespace n) = getCurrentProcess s := rfl
    simp only [NameCall.result, changeWorkingDirectory, hname, hprocess]
    cases resolveObjectName fuel s depth 0 name with
    | error e => rfl
    | ok dir =>
      simp only [bind, Except.bind]
      split_ifs <;> rfl

/-- **Run lemma**: what the calls name lies below `d`, and nothing else is observed. -/
theorem Unprivileged.answers (h : Unprivileged fuel s d) {es : List NameCall}
    (hcwd : Everywhere (NameCall.step fuel depth) CwdDirectory s es) :
    (∀ o, .ok (.object o) ∈ answers fuel depth s es → o ≠ 0 → Reach s d o) ∧
      ∀ n, Agree s n d →
        answers fuel depth (s.withNamespace n) es = Kernel.answers fuel depth s es := by
  induction es generalizing s with
  | nil => exact ⟨fun o ho => absurd ho List.not_mem_nil, fun n _ => rfl⟩
  | cons e es ih =>
    obtain ⟨hnext, hobjects, hlists⟩ := h.step hcwd.2.head
    obtain ⟨hreach, hsame⟩ := ih hnext hcwd.2
    -- a call moves the working directory at most
    have hbelow : Reach (e.step fuel depth s) = Reach s := reach_congr hobjects hlists
    have hnodes : ListNode (e.step fuel depth s) = ListNode s := listNode_congr hobjects hlists
    constructor
    · intro o ho hne
      rcases List.mem_cons.mp ho with ho | ho
      · cases hresult : e.result fuel depth s with
        | error _ => simp [hresult, Except.map] at ho
        | ok r =>
          obtain ⟨answer, s'⟩ := r
          rw [hresult] at ho
          -- the answer is an object that a name leads to, or a status
          rcases NameCall.result_cases hresult with ⟨-, hobject⟩ | ⟨-, -, -, -, hstatus, -⟩
          · obtain ⟨name, hname⟩ := hobject o (Except.ok.inj ho).symm
            exact h.reach hname hne
          · rw [Except.map, hstatus] at ho
            exact absurd ho (by simp)
      · exact hbelow ▸ hreach o ho hne
    · intro n hagree
      -- the two namespaces still agree on what can be reached
      have hagree' : Agree (e.step fuel depth s) n d := by
        constructor
        · intro o ho
          rw [hobjects]
          exact hagree.objects o (hbelow ▸ ho)
        · intro o t ho htype ht
          rw [hlists]
          exact hagree.lists o t (hbelow ▸ ho) (hobjects ▸ htype) (hnodes ▸ ht)
      have hstep : e.step fuel depth (s.withNamespace n) =
          (e.step fuel depth s).withNamespace n := by
        rw [NameCall.step, NameCall.step, h.result_congr hagree]
        cases e.result fuel depth s <;> rfl
      have hfirst : (e.result fuel depth (s.withNamespace n)).map Prod.fst =
          (e.result fuel depth s).map Prod.fst := by
        rw [h.result_congr hagree]
        cases e.result fuel depth s <;> rfl
      rw [Kernel.answers, Kernel.answers, hfirst, hstep, hsame n hagree']

/-- **Confinement**: as long as the working directory of an unprivileged process is a directory,
whatever its resolutions and changes of directory return is reachable from the working directory
it started from, and they return the same in every namespace that agrees on this part. -/
theorem confinement (hring : RingInv s ps) (hfuel : ps.length ≤ fuel) (hfew : ps.length < 2 ^ 32)
    (hcurrent : s.currentTask ≠ 0) (htoken : s.right s.currentTask &&& 1 = 0)
    {es : List NameCall} (hcwd : Everywhere (NameCall.step fuel depth) CwdDirectory s es) :
    (∀ o, .ok (.object o) ∈ answers fuel depth s es → o ≠ 0 →
      Reach s (s.tasks (getCurrentProcess s)).cwd o) ∧
    ∀ n, Agree s n (s.tasks (getCurrentProcess s)).cwd →
      answers fuel depth (s.withNamespace n) es = answers fuel depth s es := by
  have h : Unprivileged fuel s (s.tasks (getCurrentProcess s)).cwd :=
    { denied := hring.kernelCheckToken_denied hfuel hfew hcurrent htoken
      cwd := hcwd.head
      below := Relation.ReflTransGen.refl }
  exact h.answers hcwd

/-! ## A namespace -/

/-- The name field with the bytes of a string. -/
def nameField (bytes : List UInt8) (h : bytes.length ≤ 64) : List.Vector UInt8 64 :=
  ⟨pad 64 bytes, length_pad h⟩

theorem short_nil : ([] : List UInt8).length ≤ 64 := by decide

theorem short_dot : ([46] : List UInt8).length ≤ 64 := by decide

theorem short_a : ([97] : List UInt8).length ≤ 64 := by decide

theorem short_f : ([102] : List UInt8).length ≤ 64 := by decide

/-- The root directory `.` with the directory `a` and the file `f`, and in `a` the file `g`. -/
def bootObjects : ℕ → Directory
  | 0x1000 => ⟨⟨nameField [46] short_dot, 1⟩, 0x1100⟩
  | 0x1200 => ⟨⟨nameField [97] short_a, 1⟩, 0x1400⟩
  | 0x1500 => ⟨⟨nameField [102] short_f, 5⟩, 0⟩
  | 0x1600 => ⟨⟨nameField [103] (by decide), 5⟩, 0⟩
  | _ => ⟨⟨nameField [] short_nil, 0⟩, 0⟩

def bootLists : ℕ → ObjectHeaderList
  | 0x1100 => ⟨0x1200, 0x1300⟩
  | 0x1300 => ⟨0x1500, 0⟩
  | 0x1400 => ⟨0x1600, 0⟩
  | _ => ⟨0, 0⟩

/-- A kernel with this namespace and no process yet. -/
def bootDirectories : State := { bootKernel with objects := bootObjects, lists := bootLists }

/-- The same kernel with one unprivileged process. -/
def bootUnprivileged : State :=
  run (TaskCall.step Mmu.bootPlatform 8 0xFFFFFFFF80001000) bootDirectories
    [.initializeProcess 0x2000 0]

/-- The process goes to `./a` and finds `./g` there. -/
theorem confinement_boot : Reach bootUnprivileged 0x1000 0x1600 := by
  have hstart : Start bootDirectories :=
    { blocks := ⟨bootKernel_start.blocks.nonnull, bootKernel_start.blocks.injective⟩
      first := rfl
      current := rfl
      pid := rfl
      zero := fun _ _ => rfl }
  have hret : Along (TaskCall.step Mmu.bootPlatform 8 0xFFFFFFFF80001000)
      (fun s c => c.Returns Mmu.bootPlatform 8 0xFFFFFFFF80001000 s) bootDirectories
      [.initializeProcess 0x2000 0] := by decide
  obtain ⟨ps, hring, hlen⟩ := (RingInv.start hstart).run hret
  have hone : ps.length = 1 := hlen
  have hcurrent : bootUnprivileged.currentTask ≠ 0 := by decide
  have htoken : bootUnprivileged.right bootUnprivileged.currentTask &&& 1 = 0 := by decide
  have hcwd : Everywhere (NameCall.step 8 8) CwdDirectory bootUnprivileged
      [.changeDirectory (some [46, 47, 97, 0]), .resolve (some [46, 47, 103, 0])] := by
    decide +kernel
  have hanswer : .ok (.object 0x1600) ∈ answers 8 8 bootUnprivileged
      [.changeDirectory (some [46, 47, 97, 0]), .resolve (some [46, 47, 103, 0])] := by
    decide +kernel
  exact (confinement hring (hone.trans_le (by decide)) (hone.trans_lt (by decide)) hcurrent htoken
    hcwd).1 0x1600 hanswer (by decide)

end Cutesugar.Kernel
