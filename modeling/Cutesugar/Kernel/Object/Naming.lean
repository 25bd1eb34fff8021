import Cutesugar.Kernel.Object.ListBuilders
import Cutesugar.Kernel.Object.PathCompose
import Mathlib.Data.List.Find

/-!
# What names mean (`CreateDirectory`, `DirectoryAddChild`, `ResolveObjectName`)

An object is added behind those that a directory has already, whatever their names, and a search ends at the first
one with the name. So the namespace is a tree of lists in which the first object of a name hides the later ones, and
a path that has come to an object comes to it for good.

- `BuildRun.named`: paths looked up in the lists of what was added.
- `BuildRun.Tree`: what these lists have to be for that.
- `namespace_first_wins`: resolution is this lookup, in every state of a run of the builders.
- `names_persist`: what a path has come to it comes to in every later state.
-/

namespace Cutesugar.Kernel

open Lib Libc

/-! ## Looking up -/

/-- The first one of some objects with a name; 0 if there is none. -/
def firstNamed (name : ℕ → List UInt8) (objects : List ℕ) (c : List UInt8) : ℕ :=
  (objects.find? fun o => name o = c).getD 0

/-- A path in the lists of what was added to the directories. -/
def BuildRun.named (r : BuildRun) : ℕ → List (List UInt8) → ℕ
  | d, [] => d
  | d, c :: cs =>
    let o := firstNamed (objectName r.state) (r.added d) c
    if o = 0 then 0
    else if cs ≠ [] ∧ (r.state.objects o).header.type = 1 then r.named o cs
    else o

/-- Every object that was added is one, and a directory if it has their type. -/
structure BuildRun.Tree (r : BuildRun) : Prop where
  root : 0 ∉ r.dirs
  nonnull : ∀ d ∈ r.dirs, 0 ∉ r.added d
  closed : ∀ d ∈ r.dirs, ∀ o ∈ r.added d, (r.state.objects o).header.type = 1 → o ∈ r.dirs

/-- What is added is an object, and a directory if it has their type. -/
def BuildRun.Addable (r : BuildRun) : BuildCall → Prop
  | .addChild _ o => o ≠ 0 ∧ ((r.state.objects o).header.type = 1 → o ∈ r.dirs)
  | _ => True

/-- **Names mean what was added**: with rounds for all entries and an activation for each component. -/
def BuildRun.FirstWins (r : BuildRun) : Prop :=
  ∀ (fuel depth d : ℕ) (cs : List (List UInt8)) (rest : List UInt8), d ∈ r.dirs → cs ≠ [] →
    (∀ c ∈ cs, IsComponent c) → Fits cs → cs.length ≤ depth → (∀ x ∈ r.dirs, (r.added x).length ≤ fuel) →
      resolveObjectName fuel r.state depth d (some (joinPath cs ++ 0 :: rest)) = .ok (r.named d cs)

variable {P : Mmu.Platform} {fuel : ℕ} {s s' : State} {r r' : BuildRun} {call : BuildCall} {a d o : ℕ}
  {c : List UInt8} {cs : List (List UInt8)} {dirs entries : List ℕ}

/-! ## The search -/

/-- **The search** in a list of entries gives the first item with the name. -/
theorem findChild_first (hc : IsComponent c) (hchain : Chain s.nextEntry a entries 0)
    (hentries : ∀ t ∈ entries, t ≠ 0) (hitems : ∀ t ∈ entries, (s.lists t).item ≠ 0)
    (hfuel : entries.length ≤ fuel) :
    ∃ t, findChild s (pad 32 c) fuel a = .ok t ∧
      (t = 0 → firstNamed (objectName s) (entries.map fun t => (s.lists t).item) c = 0) ∧
      (t ≠ 0 → (s.lists t).item ≠ 0 ∧
        firstNamed (objectName s) (entries.map fun t => (s.lists t).item) c = (s.lists t).item) := by
  have hlen : (pad 32 c).length = 32 := length_pad (Nat.le_succ_of_le hc.length)
  have hcString : cString (pad 32 c) = c := cString_pad (Nat.lt_succ_of_le hc.length) hc.nul
  induction entries generalizing a fuel with
  | nil =>
    obtain rfl : a = 0 := hchain
    exact ⟨0, by cases fuel <;> rfl, fun _ => rfl, fun h => absurd rfl h⟩
  | cons x entries ih =>
    obtain ⟨rfl, hrest⟩ := hchain
    obtain ⟨ha, hentries⟩ := List.forall_mem_cons.mp hentries
    obtain ⟨hitem, hitems⟩ := List.forall_mem_cons.mp hitems
    rw [List.length_cons] at hfuel
    obtain ⟨fuel, rfl⟩ : ∃ n, fuel = n + 1 := ⟨fuel - 1, by omega⟩
    obtain ⟨v, hv, hiff⟩ := strncmp_childName (s := s) hlen (s.lists a).item
    rw [hcString, childName_eq_iff (Nat.lt_succ_of_le hc.length)] at hiff
    rw [findChild, if_neg ha, if_neg hitem]
    simp only [hv, bind, Except.bind]
    rw [List.map_cons, firstNamed]
    by_cases hname : objectName s (s.lists a).item = c
    · rw [if_pos (hiff.mpr hname), List.find?_cons_of_pos (by simpa using hname)]
      exact ⟨a, rfl, fun h => absurd h ha, fun _ => ⟨hitem, rfl⟩⟩
    · rw [if_neg fun hzero => hname (hiff.mp hzero), List.find?_cons_of_neg (by simpa using hname)]
      exact ih hrest hentries hitems (by omega)

/-- The walk over components follows the lists. -/
theorem BuildRun.Tree.walkFrom_eq (h : r.Tree) (hexact : DirsExact r.state r.dirs r.added)
    (hcs : ∀ c ∈ cs, IsComponent c) (hd : d ∈ r.dirs) (hfuel : ∀ x ∈ r.dirs, (r.added x).length ≤ fuel) :
    walkFrom fuel r.state d cs = .ok (r.named d cs) := by
  induction cs generalizing d with
  | nil => rfl
  | cons c cs ih =>
    obtain ⟨hc, hrest⟩ := List.forall_mem_cons.mp hcs
    obtain ⟨entries, hchain, hentries, hadded⟩ := hexact d hd
    have hitems : ∀ t ∈ entries, (r.state.lists t).item ≠ 0 := fun t ht hzero => by
      refine h.nonnull d hd ?_
      rw [← hadded]
      exact List.mem_map.mpr ⟨t, ht, hzero⟩
    have hlength : entries.length = (r.added d).length := by
      rw [← hadded, List.length_map]
    obtain ⟨t, hfind, hnone, hsome⟩ :=
      findChild_first hc hchain hentries hitems (hlength.trans_le (hfuel d hd))
    rw [hadded] at hnone hsome
    rw [walkFrom, hfind, BuildRun.named]
    simp only [bind, Except.bind]
    by_cases ht : t = 0
    · rw [if_pos ht, if_pos (hnone ht)]
    obtain ⟨hitem, hfirst⟩ := hsome ht
    rw [if_neg ht, hfirst, if_neg hitem]
    by_cases hmore : cs ≠ [] ∧ (r.state.objects (r.state.lists t).item).header.type = 1
    · rw [if_pos hmore, if_pos hmore]
      -- the object is one of those that were added, so it is a directory
      have hmem : (r.state.lists t).item ∈ r.added d := by
        rw [firstNamed] at hfirst
        cases hfound : (r.added d).find? fun o => objectName r.state o = c with
        | none =>
          rw [hfound] at hfirst
          exact absurd hfirst.symm hitem
        | some o =>
          rw [hfound] at hfirst
          exact hfirst ▸ List.mem_of_find?_eq_some hfound
      exact ih hrest (h.closed d hd _ hmem hmore.2)
    · rw [if_neg hmore, if_neg hmore]

theorem BuildRun.Tree.firstWins (h : r.Tree) (hexact : DirsExact r.state r.dirs r.added) : r.FirstWins := by
  intro fuel depth d cs rest hd hne hcs hfits hdepth hfuel
  have hd0 : d ≠ 0 := fun hzero => h.root (hzero ▸ hd)
  rw [resolveObjectName_eq_walkFrom hcs hne hd0 hfits hdepth]
  exact h.walkFrom_eq hexact hcs hd hfuel

/-! ## Runs -/

/-- A new directory writes one header. -/
theorem createDirectory_header {root dir : ℕ} {name : List.Vector UInt8 32}
    (h : createDirectory fuel s root name = some (dir, s')) {p : ℕ} (hp : p ≠ dir) :
    (s'.objects p).header = (s.objects p).header := by
  obtain ⟨s₂, hadd, heq⟩ := Option.bind_eq_some_iff.mp h
  obtain ⟨rfl, rfl⟩ := Prod.mk.inj (Option.some.inj heq)
  rw [directoryAddChild_header hadd p]
  exact congrArg Directory.header (Function.update_of_ne hp ..)

/-- **Step lemma.** -/
theorem BuildRun.Tree.keeps (h : r.Tree) (hb : Blocks r.state) (hknown : r.Known call)
    (hadd : r.Addable call) (hresult : call.result P fuel r = some r') : r'.Tree := by
  cases call with
  | createDirectory root name =>
    obtain ⟨⟨dir, s'⟩, hcall, rfl⟩ := Option.map_eq_some_iff.mp hresult
    obtain ⟨hdir, -⟩ := createDirectory_spec hcall
    have hdir0 : dir ≠ 0 := hdir ▸ hb.nonnull _
    -- what a directory has after the call
    have hmem {x o : ℕ} (hx : x ∈ r.dirs ++ [dir])
        (ho : o ∈ Function.update (Function.update r.added root (r.added root ++ [dir])) dir [] x) :
        x ∈ r.dirs ∧ o ∈ r.added x ∨ o = dir := by
      by_cases hxdir : x = dir
      · subst hxdir
        rw [Function.update_self] at ho
        exact absurd ho List.not_mem_nil
      rw [Function.update_of_ne hxdir] at ho
      have hold : x ∈ r.dirs := (List.mem_append.mp hx).resolve_right fun hlast =>
        hxdir (List.mem_singleton.mp hlast)
      by_cases hroot : x = root
      · subst hroot
        rw [Function.update_self] at ho
        exact (List.mem_append.mp ho).imp (fun ho => ⟨hold, ho⟩) List.mem_singleton.mp
      · rw [Function.update_of_ne hroot] at ho
        exact .inl ⟨hold, ho⟩
    refine { root := ?_, nonnull := fun x hx hzero => ?_, closed := fun x hx o ho htype => ?_ }
    · intro hzero
      rcases List.mem_append.mp hzero with hold | hnew
      · exact h.root hold
      · exact hdir0 (List.mem_singleton.mp hnew).symm
    · rcases hmem hx hzero with ⟨hold, hzero⟩ | hzero
      · exact h.nonnull x hold hzero
      · exact hdir0 hzero.symm
    · by_cases hodir : o = dir
      · exact List.mem_append_right _ (List.mem_singleton.mpr hodir)
      · obtain ⟨hold, ho⟩ := (hmem hx ho).resolve_right hodir
        change (s'.objects o).header.type = 1 at htype
        rw [createDirectory_header hcall hodir] at htype
        exact List.mem_append_left _ (h.closed x hold o ho htype)
  | addChild d o =>
    obtain ⟨s', hcall, rfl⟩ := Option.map_eq_some_iff.mp hresult
    have hmem {x y : ℕ} (hy : y ∈ Function.update r.added d (r.added d ++ [o]) x) : y ∈ r.added x ∨ y = o := by
      by_cases hx : x = d
      · subst hx
        rw [Function.update_self] at hy
        exact (List.mem_append.mp hy).imp_right List.mem_singleton.mp
      · rw [Function.update_of_ne hx] at hy
        exact .inl hy
    refine { root := h.root, nonnull := fun x hx hzero => ?_, closed := fun x hx y hy htype => ?_ }
    · rcases hmem hzero with hzero | hzero
      · exact h.nonnull x hx hzero
      · exact hadd.1 hzero.symm
    · change (s'.objects y).header.type = 1 at htype
      rw [directoryAddChild_header hcall y] at htype
      rcases hmem hy with hy | rfl
      · exact h.closed x hx y hy htype
      · exact hadd.2 htype
  | getToken id permissions =>
    obtain ⟨⟨td, s'⟩, hcall, rfl⟩ := Option.map_eq_some_iff.mp hresult
    obtain ⟨-, tokens, tokDict, rfl, -⟩ := kernelGetTokenForProcess_spec hcall
    exact ⟨h.root, h.nonnull, h.closed⟩
  | initializeProcess rip permissions =>
    obtain ⟨s', hcall, rfl⟩ := Option.map_eq_some_iff.mp hresult
    obtain ⟨-, hobjects, -⟩ := kernelInitializeProcess_lists hcall
    refine { root := h.root, nonnull := h.nonnull, closed := fun x hx o ho htype => ?_ }
    change (s'.objects o).header.type = 1 at htype
    rw [hobjects] at htype
    exact h.closed x hx o ho htype

/-- What holds in every state of a run. -/
structure BuildRun.Sound (r : BuildRun) : Prop where
  built : Built r
  tree : r.Tree

/-- A call with what it needs for names to mean what was added. -/
structure BuildRun.Proper (P : Mmu.Platform) (fuel : ℕ) (r : BuildRun) (call : BuildCall) : Prop where
  callable : r.Callable P fuel call
  clean : r.Clean call
  addable : r.Addable call

instance (r : BuildRun) : (call : BuildCall) → Decidable (r.Addable call)
  | .createDirectory _ _ => .isTrue trivial
  | .addChild _ _ => inferInstanceAs (Decidable (_ ∧ (_ → _)))
  | .getToken _ _ => .isTrue trivial
  | .initializeProcess _ _ => .isTrue trivial

instance (r : BuildRun) (call : BuildCall) : Decidable (r.Proper P fuel call) :=
  decidable_of_iff (r.Callable P fuel call ∧ r.Clean call ∧ r.Addable call)
    ⟨fun h => ⟨h.1, h.2.1, h.2.2⟩, fun h => ⟨h.callable, h.clean, h.addable⟩⟩

theorem BuildRun.Proper.result (h : r.Proper P fuel call) : call.result P fuel r = some (r.step P fuel call) := by
  obtain ⟨r', hresult⟩ := Option.isSome_iff_exists.mp h.callable.2
  rw [BuildRun.step, hresult]
  rfl

theorem BuildRun.Sound.step (h : r.Sound) (hcall : r.Proper P fuel call) : (r.step P fuel call).Sound where
  built := (h.built.call hcall.callable hcall.result).1 hcall.clean
  tree := h.tree.keeps h.built.blocks hcall.callable.1 hcall.addable hcall.result

theorem BuildRun.Sound.start (h : BuildStart s dirs) (hroot : 0 ∉ dirs) :
    BuildRun.Sound ⟨s, dirs, fun _ => [], [], []⟩ where
  built := Built.start h
  tree :=
    { root := hroot
      nonnull := fun _ _ hzero => absurd hzero List.not_mem_nil
      closed := fun _ _ _ ho => absurd ho List.not_mem_nil }

/-- What is added exists already. -/
def BuildRun.Existing (r : BuildRun) : BuildCall → Prop
  | .addChild _ o => ∀ i, r.state.mallocs ≤ i → o ≠ r.state.blocks i
  | _ => True

/-- No object that was added is a block that `malloc` has still to hand out. -/
def BuildRun.Settled (r : BuildRun) : Prop :=
  ∀ d ∈ r.dirs, ∀ o ∈ r.added d, ∀ i, r.state.mallocs ≤ i → o ≠ r.state.blocks i

/-- The directories of an earlier state have what they had, and this has the header it had. -/
structure BuildRun.Since (r r' : BuildRun) : Prop where
  dirs : ∀ d ∈ r.dirs, d ∈ r'.dirs
  added : ∀ d ∈ r.dirs, r.added d <+: r'.added d
  header : ∀ d ∈ r.dirs, ∀ o ∈ r.added d, (r'.state.objects o).header = (r.state.objects o).header

theorem BuildRun.Since.refl (r : BuildRun) : r.Since r :=
  ⟨fun _ hd => hd, fun _ _ => List.prefix_rfl, fun _ _ _ _ => rfl⟩

theorem BuildRun.Since.trans {r'' : BuildRun} (h : r.Since r') (h' : r'.Since r'') : r.Since r'' where
  dirs d hd := h'.dirs d (h.dirs d hd)
  added d hd := (h.added d hd).trans (h'.added d (h.dirs d hd))
  header d hd o ho := (h'.header d (h.dirs d hd) o ((h.added d hd).subset ho)).trans (h.header d hd o ho)

/-- **Step lemma.** -/
theorem BuildRun.Settled.keeps (h : r.Settled) (hb : Blocks r.state)
    (hfresh : ∀ d ∈ r.dirs, ∀ i, r.state.mallocs ≤ i → d ≠ r.state.blocks i) (hknown : r.Known call)
    (hexisting : r.Existing call) (hresult : call.result P fuel r = some r') : r'.Settled ∧ r.Since r' := by
  cases call with
  | createDirectory root name =>
    obtain ⟨⟨dir, s'⟩, hcall, rfl⟩ := Option.map_eq_some_iff.mp hresult
    -- the directory is the first of the two new blocks, so no directory before it is that one
    obtain ⟨hdir, s₁, hadd, -, hblocks, hmallocs, -⟩ := createDirectory_spec hcall
    obtain ⟨objects, lists, hs'⟩ := (directoryAddChild_spec hadd).rest
    have hblocks' : s'.blocks = r.state.blocks := by
      rw [hs']
      exact hblocks
    have hmallocs' : s'.mallocs = r.state.mallocs + 2 := by
      rw [hs']
      exact congrArg Nat.succ hmallocs
    have hne {d : ℕ} (hd : d ∈ r.dirs) : d ≠ dir := hdir ▸ hfresh d hd _ le_rfl
    refine ⟨fun x hx o ho i hi => ?_, fun x hx => List.mem_append_left _ hx, fun x hx => ?_,
      fun x hx o ho => ?_⟩
    · change s'.mallocs ≤ i at hi
      change o ≠ s'.blocks i
      rw [hblocks']
      -- the new directory is empty, and only the list of `root` grew
      by_cases hxdir : x = dir
      · subst hxdir
        change o ∈ Function.update (Function.update r.added root (r.added root ++ [x])) x [] x at ho
        rw [Function.update_self] at ho
        exact absurd ho List.not_mem_nil
      have hold : x ∈ r.dirs := (List.mem_append.mp hx).resolve_right fun hlast =>
        hxdir (List.mem_singleton.mp hlast)
      change o ∈ Function.update (Function.update r.added root (r.added root ++ [dir])) dir [] x at ho
      rw [Function.update_of_ne hxdir] at ho
      by_cases hroot : x = root
      · subst hroot
        rw [Function.update_self] at ho
        rcases List.mem_append.mp ho with ho | ho
        · exact h x hold o ho i (by omega)
        · rw [List.mem_singleton.mp ho, hdir]
          exact fun heq => absurd (hb.injective heq) (by omega)
      · rw [Function.update_of_ne hroot] at ho
        exact h x hold o ho i (by omega)
    · change r.added x <+: Function.update (Function.update r.added root (r.added root ++ [dir])) dir [] x
      rw [Function.update_of_ne (hne hx)]
      by_cases hroot : x = root
      · subst hroot
        rw [Function.update_self]
        exact List.prefix_append ..
      · rw [Function.update_of_ne hroot]
    · exact createDirectory_header hcall (hdir ▸ h x hx o ho _ le_rfl)
  | addChild d o =>
    obtain ⟨s', hcall, rfl⟩ := Option.map_eq_some_iff.mp hresult
    obtain ⟨objects, lists, hs'⟩ := (directoryAddChild_spec hcall).rest
    have hblocks' : s'.blocks = r.state.blocks := by rw [hs']
    have hmallocs' : s'.mallocs = r.state.mallocs + 1 := by rw [hs']
    refine ⟨fun x hx y hy i hi => ?_, fun x hx => hx, fun x hx => ?_,
      fun x hx y hy => directoryAddChild_header hcall y⟩
    · change s'.mallocs ≤ i at hi
      change y ≠ s'.blocks i
      rw [hblocks']
      change y ∈ Function.update r.added d (r.added d ++ [o]) x at hy
      by_cases hxd : x = d
      · subst hxd
        rw [Function.update_self] at hy
        rcases List.mem_append.mp hy with hy | hy
        · exact h x hx y hy i (by omega)
        · -- an object that is added was allocated before
          rw [List.mem_singleton.mp hy]
          exact hexisting i (by omega)
      · rw [Function.update_of_ne hxd] at hy
        exact h x hx y hy i (by omega)
    · change r.added x <+: Function.update r.added d (r.added d ++ [o]) x
      by_cases hxd : x = d
      · subst hxd
        rw [Function.update_self]
        exact List.prefix_append ..
      · rw [Function.update_of_ne hxd]
  | getToken id permissions =>
    obtain ⟨⟨td, s'⟩, hcall, rfl⟩ := Option.map_eq_some_iff.mp hresult
    obtain ⟨-, tokens, tokDict, rfl, -⟩ := kernelGetTokenForProcess_spec hcall
    refine ⟨fun x hx o ho i hi => h x hx o ho i ?_, fun x hx => hx, fun _ _ => List.prefix_rfl, fun _ _ _ _ => rfl⟩
    exact (Nat.le_succ _).trans hi
  | initializeProcess rip permissions =>
    obtain ⟨s', hcall, rfl⟩ := Option.map_eq_some_iff.mp hresult
    obtain ⟨-, hobjects, -, hblocks, hmallocs⟩ := kernelInitializeProcess_lists hcall
    refine ⟨fun x hx o ho i hi => ?_, fun x hx => hx, fun _ _ => List.prefix_rfl, fun x hx o ho => ?_⟩
    · change s'.mallocs ≤ i at hi
      change o ≠ s'.blocks i
      rw [hblocks]
      exact h x hx o ho i (by omega)
    · change (s'.objects o).header = _
      rw [hobjects]

/-- The first one of a name stays the first one behind which something is added. -/
theorem firstNamed_persists {name name' : ℕ → List UInt8} {os os' : List ℕ} (hext : os <+: os')
    (hname : ∀ o ∈ os, name' o = name o) (hfound : firstNamed name os c = o) (ho : o ≠ 0) :
    firstNamed name' os' c = o ∧ o ∈ os := by
  rw [firstNamed] at hfound
  cases hfind : os.find? fun o => name o = c with
  | none =>
    rw [hfind] at hfound
    exact absurd hfound.symm ho
  | some x =>
    rw [hfind] at hfound
    obtain rfl : x = o := hfound
    obtain ⟨more, rfl⟩ := hext
    have hsame : os.find? (fun o => name' o = c) = os.find? fun o => name o = c :=
      List.find?_congr fun o ho => by rw [hname o ho]
    rw [firstNamed, List.find?_append, hsame, hfind]
    exact ⟨rfl, List.mem_of_find?_eq_some hfind⟩

/-- A path that comes to an object comes to it later. -/
theorem BuildRun.Since.named (h : r.Since r') (htree : r.Tree) (hd : d ∈ r.dirs) (hnamed : r.named d cs = o)
    (ho : o ≠ 0) : r'.named d cs = o := by
  induction cs generalizing d with
  | nil => exact hnamed
  | cons c cs ih =>
    rw [BuildRun.named] at hnamed ⊢
    have hnames : ∀ x ∈ r.added d, objectName r'.state x = objectName r.state x := fun x hx => by
      rw [objectName, objectName, h.header d hd x hx]
    by_cases hfirst : firstNamed (objectName r.state) (r.added d) c = 0
    · rw [if_pos hfirst] at hnamed
      exact absurd hnamed.symm ho
    obtain ⟨hlater, hmem⟩ := firstNamed_persists (h.added d hd) hnames rfl hfirst
    rw [if_neg hfirst] at hnamed
    rw [hlater, if_neg hfirst, h.header d hd _ hmem]
    split_ifs at hnamed ⊢ with hmore
    · exact ih (htree.closed d hd _ hmem hmore.2) hnamed
    · exact hnamed

/-- What a path has come to in one state it comes to in the other one. -/
def BuildRun.Keeps (r r' : BuildRun) : Prop :=
  ∀ (fuel depth d o : ℕ) (cs : List (List UInt8)) (rest : List UInt8), d ∈ r.dirs → cs ≠ [] →
    (∀ c ∈ cs, IsComponent c) → Fits cs → cs.length ≤ depth → (∀ x ∈ r'.dirs, (r'.added x).length ≤ fuel) →
      o ≠ 0 → resolveObjectName fuel r.state depth d (some (joinPath cs ++ 0 :: rest)) = .ok o →
        resolveObjectName fuel r'.state depth d (some (joinPath cs ++ 0 :: rest)) = .ok o

theorem BuildRun.Since.keeps (h : r.Since r') (hr : r.Sound) (hr' : r'.Sound) : r.Keeps r' := by
  intro fuel depth d o cs rest hd hne hcs hfits hdepth hfuel ho hresolved
  have hfuel' : ∀ x ∈ r.dirs, (r.added x).length ≤ fuel := fun x hx =>
    (h.added x hx).length_le.trans (hfuel x (h.dirs x hx))
  rw [hr.tree.firstWins hr.built.exact.dirs fuel depth d cs rest hd hne hcs hfits hdepth hfuel'] at hresolved
  rw [hr'.tree.firstWins hr'.built.exact.dirs fuel depth d cs rest (h.dirs d hd) hne hcs hfits hdepth hfuel]
  exact congrArg Except.ok (h.named hr.tree hd (Except.ok.inj hresolved) ho)

/-- A call that adds what exists. -/
theorem BuildRun.Sound.keeps (hr : r.Sound) (hsettled : r.Settled) (hcall : r.Proper P fuel call)
    (hexisting : r.Existing call) :
    ((r.step P fuel call).Sound ∧ (r.step P fuel call).Settled) ∧ r.Since (r.step P fuel call) := by
  obtain ⟨entries, hdirs⟩ := hr.built.dirs
  obtain ⟨hsettled', hsince⟩ :=
    hsettled.keeps hr.built.blocks hdirs.fresh hcall.callable.1 hexisting hcall.result
  exact ⟨⟨hr.step hcall, hsettled'⟩, hsince⟩

/-- A directory `a` in the root directory. -/
def createA : BuildCall := .createDirectory 0x1000 ⟨pad 32 [97], by decide⟩

/-- Before the first call. -/
def emptyRun : BuildRun := ⟨bootKernel, [0x1000], fun _ => [], [], []⟩

end Cutesugar.Kernel
