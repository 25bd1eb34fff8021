import Cutesugar.Kernel.Object.Confinement

/-!
# Soundness of path resolution

A path is followed from directory to directory, one component at a time. `ResolveObjectName`
returns an object reached this way unless it comes to an object that is no directory before the
path ends: this object it returns, whatever remains of the path.

## Structure

- `Follows`: the object reached by a path; `Names` with the first child of each name.
- `resolveObjectName_cons`: one activation.
- `ObjectTree`: in a tree an object is reached by paths of one length.
- `sound_iff`: the paths that resolve soundly.
-/

namespace Cutesugar.Kernel

open Lib Libc

variable {s : State} {d o root fuel depth : ℕ} {c : List UInt8} {cs comps : List (List UInt8)}

/-! ## Following a path -/

/-- The object `o` is reached from `d` by following every component in turn, each as the name of
a child of a directory. -/
def Follows (s : State) : ℕ → List (List UInt8) → ℕ → Prop
  | d, [], o => d = o
  | d, c :: cs, o => ∃ child, Edge s d child ∧ objectName s child = c ∧ Follows s child cs o

/-- The child `o` is the first of the directory `d` with a name. -/
def FirstChild (s : State) (d : ℕ) (c : List UInt8) (o : ℕ) : Prop :=
  (s.objects d).header.type = 1 ∧ ∃ nodes t, Chain s.nextEntry (s.objects d).headerList nodes t ∧
    (∀ x ∈ nodes, x ≠ 0 ∧ (s.lists x).item ≠ 0 ∧ objectName s (s.lists x).item ≠ c) ∧
    t ≠ 0 ∧ (s.lists t).item = o ∧ o ≠ 0 ∧ objectName s o = c

/-- The object that a path names when siblings of one name are told apart by their order. -/
def Names (s : State) : ℕ → List (List UInt8) → ℕ → Prop
  | d, [], o => d = o
  | d, c :: cs, o => ∃ child, FirstChild s d c child ∧ Names s child cs o

theorem FirstChild.edge (h : FirstChild s d c o) : Edge s d o := by
  obtain ⟨htype, nodes, t, hchain, hnodes, ht, hitem, -⟩ := h
  exact ⟨htype, t, ⟨ht, nodes, hchain, fun x hx => (hnodes x hx).1⟩, hitem⟩

theorem Names.follows (h : Names s d cs o) : Follows s d cs o := by
  induction cs generalizing d with
  | nil => exact h
  | cons c cs ih =>
    obtain ⟨child, hfirst, hrest⟩ := h
    obtain ⟨-, -, -, -, -, -, -, -, hname⟩ := id hfirst
    exact ⟨child, hfirst.edge, hname, ih hrest⟩

/-- A path is followed from the end as well. -/
theorem follows_concat : Follows s d (cs ++ [c]) o ↔
    ∃ m, Follows s d cs m ∧ Edge s m o ∧ objectName s o = c := by
  induction cs generalizing d with
  | nil =>
    constructor
    · rintro ⟨child, hedge, hname, rfl⟩
      exact ⟨d, rfl, hedge, hname⟩
    · rintro ⟨m, rfl, hedge, hname⟩
      exact ⟨o, hedge, hname, rfl⟩
  | cons x cs ih =>
    constructor
    · rintro ⟨child, hedge, hname, hrest⟩
      obtain ⟨m, hm, hlast⟩ := ih.mp hrest
      exact ⟨m, ⟨child, hedge, hname, hm⟩, hlast⟩
    · rintro ⟨m, ⟨child, hedge, hname, hm⟩, hlast⟩
      exact ⟨child, hedge, hname, ih.mpr ⟨m, hm, hlast⟩⟩

theorem Follows.reach (h : Follows s d cs o) : Reach s d o := by
  induction cs generalizing d with
  | nil =>
    obtain rfl := h
    exact Relation.ReflTransGen.refl
  | cons c cs ih =>
    obtain ⟨child, hedge, -, hrest⟩ := h
    exact (ih hrest).head hedge

/-! ## Trees -/

/-- The objects below `root` are a tree: none has two parents, and `root` has none. -/
structure ObjectTree (s : State) (root : ℕ) : Prop where
  orphan : ∀ d, Reach s root d → ¬ Edge s d root
  parent : ∀ d d' o, Reach s root d → Reach s root d' → Edge s d o → Edge s d' o → d = d'

/-- **Level**: the paths to an object of a tree have one length. -/
theorem ObjectTree.level (h : ObjectTree s root) {cs' : List (List UInt8)}
    (hcs : Follows s root cs o) (hcs' : Follows s root cs' o) : cs.length = cs'.length := by
  induction cs using List.reverseRecOn generalizing cs' o with
  | nil =>
    obtain rfl := hcs
    rcases List.eq_nil_or_concat' cs' with rfl | ⟨l, c, rfl⟩
    · rfl
    · obtain ⟨m, hm, hedge, -⟩ := follows_concat.mp hcs'
      exact absurd hedge (h.orphan m hm.reach)
  | append_singleton l c ih =>
    obtain ⟨m, hm, hedge, -⟩ := follows_concat.mp hcs
    rcases List.eq_nil_or_concat' cs' with rfl | ⟨l', c', rfl⟩
    · obtain rfl := hcs'
      exact absurd hedge (h.orphan m hm.reach)
    · obtain ⟨m', hm', hedge', -⟩ := follows_concat.mp hcs'
      obtain rfl := h.parent m m' o hm.reach hm'.reach hedge hedge'
      rw [List.length_append, List.length_append, ih hm hm']
      rfl

/-! ## One activation -/

/-- The part of a path that has to fit into the buffer `remaining`. -/
def Fits (comps : List (List UInt8)) : Prop := (joinPath comps.tail).length ≤ 255

instance (comps : List (List UInt8)) : Decidable (Fits comps) :=
  inferInstanceAs (Decidable (_ ≤ _))

theorem Fits.tail (h : Fits (c :: cs)) : Fits cs := by
  cases cs with
  | nil => exact Nat.zero_le _
  | cons c' cs =>
    rw [Fits, List.tail_cons] at h ⊢
    cases cs with
    | nil => exact Nat.zero_le _
    | cons c'' cs =>
      rw [joinPath_cons (by simp), List.length_append, List.length_cons] at h
      omega

/-- The parser's view of a path of components. -/
theorem splitName_joinPath (h : ∀ x ∈ c :: cs, IsComponent x) (rest : List UInt8) :
    splitName (joinPath (c :: cs) ++ 0 :: rest) =
      if Fits (c :: cs) then .ok (some (pad 32 c, pad 256 (joinPath cs)))
      else .error .overflow := by
  have hc := h c (List.mem_cons_self ..)
  cases cs with
  | nil =>
    rw [if_pos (show Fits [c] from Nat.zero_le _)]
    exact splitName_last hc.slash hc.nul hc.length
  | cons c' cs =>
    have hnul := joinPath_nul fun x hx => h x (List.mem_cons_of_mem c hx)
    rw [joinPath_cons (by simp), List.append_assoc, List.cons_append]
    exact splitName_more hc.slash hc.nul (Nat.le_succ_of_le hc.length) hnul

/-- A path goes on iff the buffer `remaining` starts with a byte. -/
theorem head_pad (h : ∀ x ∈ cs, IsComponent x) (hfits : (joinPath cs).length ≤ 255) :
    (pad 256 (joinPath cs)).head? ≠ some 0 ↔ cs ≠ [] := by
  rw [head_pad_iff (joinPath_nul h) hfits]
  constructor
  · rintro hne rfl
    exact hne rfl
  · exact joinPath_ne_nil h

/-- **One activation** on a path of components. -/
theorem resolveObjectName_cons (h : ∀ x ∈ c :: cs, IsComponent x) (hd : d ≠ 0)
    (rest : List UInt8) :
    resolveObjectName fuel s (depth + 1) d (some (joinPath (c :: cs) ++ 0 :: rest)) =
      if Fits (c :: cs) then do
        let t ← findChild s (pad 32 c) fuel (s.objects d).headerList
        if t = 0 then .ok 0
        else if cs ≠ [] ∧ (s.objects (s.lists t).item).header.type = 1 then
          resolveObjectName fuel s depth (s.lists t).item (some (pad 256 (joinPath cs)))
        else .ok (s.lists t).item
      else .error .overflow := by
  obtain ⟨v, hv, hdot⟩ := (h c (List.mem_cons_self ..)).strncmp_dot
  have hstart : startDirectory s d = .ok d := if_neg hd
  rw [resolveObjectName, hstart, splitName_joinPath h]
  by_cases hfits : Fits (c :: cs)
  · have hhead := head_pad (fun x hx => h x (List.mem_cons_of_mem c hx)) hfits
    simp only [if_pos hfits, bind, Except.bind, hv, if_neg hdot, if_neg hd, hhead]
  · rw [if_neg hfits, if_neg hfits]
    rfl

/-- The path that the next activation gets. -/
theorem pad_joinPath (hfits : Fits (c :: cs)) :
    pad 256 (joinPath cs) =
      joinPath cs ++ 0 :: List.replicate (256 - (joinPath cs).length - 1) 0 :=
  pad_eq (Nat.lt_succ_of_le hfits)

/-! ## First children -/

theorem FirstChild.nonnull (h : FirstChild s d c o) : o ≠ 0 := by
  obtain ⟨-, -, -, -, -, -, -, ho, -⟩ := h
  exact ho

/-- A directory with a child has a list. -/
theorem FirstChild.headerList (h : FirstChild s d c o) : (s.objects d).headerList ≠ 0 := by
  obtain ⟨-, nodes, t, hchain, hnodes, ht, -⟩ := h
  intro hzero
  rw [hzero] at hchain
  cases nodes with
  | nil => exact ht hchain.symm
  | cons x nodes =>
    obtain ⟨rfl, -⟩ := hchain
    exact (hnodes 0 (List.mem_cons_self ..)).1 rfl

/-- The search in the list of a directory finds an object under a name. -/
def Finds (s : State) (fuel d : ℕ) (c : List UInt8) (o : ℕ) : Prop :=
  ∃ t, findChild s (pad 32 c) fuel (s.objects d).headerList = .ok t ∧ t ≠ 0 ∧ (s.lists t).item = o

/-- **The first child** of a name is found, with a round for each entry in front. -/
theorem FirstChild.finds (h : FirstChild s d c o) (hc : IsComponent c) :
    ∃ fuel₀, ∀ fuel, fuel₀ ≤ fuel → Finds s fuel d c o := by
  obtain ⟨-, nodes, t, hchain, hnodes, ht, rfl, hitem, hname⟩ := h
  have hlen : c.length < 32 := Nat.lt_succ_of_le hc.length
  have hcString : cString (pad 32 c) = c := cString_pad hlen hc.nul
  refine ⟨nodes.length + 1, fun fuel hfuel => ⟨t, ?_, ht, rfl⟩⟩
  apply findChild_of_chain (length_pad hlen.le) hchain
  · intro x hx
    obtain ⟨hx0, hxitem, hxname⟩ := hnodes x hx
    rw [hcString]
    exact ⟨hx0, hxitem, fun heq => hxname ((childName_eq_iff hlen).mp heq)⟩
  · exact ht
  · exact hitem
  · rw [hcString]
    exact (childName_eq_iff hlen).mpr hname
  · exact hfuel

/-- **One activation** that finds a directory and goes on there. -/
theorem Finds.resolve (h : Finds s fuel d c o) (hcomps : ∀ x ∈ c :: cs, IsComponent x) (hcs : cs ≠ [])
    (hd : d ≠ 0) (hfits : Fits (c :: cs)) (htype : (s.objects o).header.type = 1) (rest : List UInt8) :
    resolveObjectName fuel s (depth + 1) d (some (joinPath (c :: cs) ++ 0 :: rest)) =
      resolveObjectName fuel s depth o (some (pad 256 (joinPath cs))) := by
  obtain ⟨t, hfind, ht, rfl⟩ := h
  rw [resolveObjectName_cons hcomps hd, if_pos hfits, hfind]
  simp only [bind, Except.bind, if_neg ht]
  exact if_pos ⟨hcs, htype⟩

/-- The last activation. -/
theorem resolveObjectName_last (hc : IsComponent c) (hd : d ≠ 0) (rest : List UInt8) :
    resolveObjectName fuel s (depth + 1) d (some (c ++ 0 :: rest)) =
      (findChild s (pad 32 c) fuel (s.objects d).headerList).map
        fun t => if t = 0 then 0 else (s.lists t).item := by
  have hcomps : ∀ x ∈ [c], IsComponent x := fun x hx => (List.mem_singleton.mp hx) ▸ hc
  have hone : resolveObjectName fuel s (depth + 1) d (some (joinPath [c] ++ 0 :: rest)) = _ :=
    resolveObjectName_cons hcomps hd rest
  have hfits : Fits [c] := Nat.zero_le _
  rw [if_pos hfits] at hone
  refine hone.trans ?_
  cases findChild s (pad 32 c) fuel (s.objects d).headerList with
  | error e => rfl
  | ok t =>
    simp only [bind, Except.bind, Except.map]
    split_ifs with ht hmore
    · rfl
    · exact absurd rfl hmore.1
    · rfl

/-! ## Whole paths -/

/-- No proper prefix of the path names an object that is no directory. -/
def Unobstructed (s : State) (root : ℕ) (comps : List (List UInt8)) : Prop :=
  ∀ pre post o, comps = pre ++ post → post ≠ [] → Names s root pre o →
    (s.objects o).header.type = 1

/-- Every resolution of the path stays in its buffers and returns the null pointer or an object
that the path leads to. -/
def SoundPath (s : State) (root : ℕ) (comps : List (List UInt8)) : Prop :=
  ∀ fuel depth rest,
    resolveObjectName fuel s depth root (some (joinPath comps ++ 0 :: rest)) ≠ .error .overflow ∧
    ∀ o, resolveObjectName fuel s depth root (some (joinPath comps ++ 0 :: rest)) = .ok o →
      o ≠ 0 → Follows s root comps o

/-- An entry found is the first child of the name. -/
theorem firstChild_of_findChild {t : ℕ} (hc : IsComponent c)
    (htype : (s.objects d).header.type = 1)
    (hfind : findChild s (pad 32 c) fuel (s.objects d).headerList = .ok t) (ht : t ≠ 0) :
    FirstChild s d c (s.lists t).item := by
  have hlen : c.length < 32 := Nat.lt_succ_of_le hc.length
  have hcString : cString (pad 32 c) = c := cString_pad hlen hc.nul
  obtain ⟨⟨nodes, hchain, hnodes⟩, hlast⟩ := findChild_spec (length_pad hlen.le) hfind
  rw [hcString] at hlast hnodes
  obtain ⟨hitem, hname⟩ := hlast ht
  refine ⟨htype, nodes, t, hchain, fun x hx => ?_, ht, rfl, hitem, (childName_eq_iff hlen).mp hname⟩
  obtain ⟨hx0, hxitem, hxname⟩ := hnodes x hx
  exact ⟨hx0, hxitem, fun heq => hxname ((childName_eq_iff hlen).mpr heq)⟩

/-- **Soundness** of the paths that fit and are not obstructed. -/
theorem soundPath_of_unobstructed (hcomps : ∀ x ∈ comps, IsComponent x) (hne : comps ≠ [])
    (hroot : root ≠ 0) (htype : (s.objects root).header.type = 1) (hfits : Fits comps)
    (hfree : Unobstructed s root comps) : SoundPath s root comps := by
  intro fuel depth rest
  induction comps generalizing root depth rest with
  | nil => exact absurd rfl hne
  | cons c cs ih =>
    have hc := hcomps c (List.mem_cons_self ..)
    have hcs : ∀ x ∈ cs, IsComponent x := fun x hx => hcomps x (List.mem_cons_of_mem c hx)
    cases depth with
    | zero =>
      constructor
      · simp [resolveObjectName]
      · intro o ho
        exact absurd ho (by simp [resolveObjectName])
    | succ depth =>
      rw [resolveObjectName_cons hcomps hroot, if_pos hfits]
      cases hfind : findChild s (pad 32 c) fuel (s.objects root).headerList with
      | error e =>
        refine ⟨fun heq => ?_, fun o ho => absurd ho (by simp [bind, Except.bind])⟩
        exact findChild_ne_overflow (length_pad (Nat.le_succ_of_le hc.length))
          (hfind.trans (by simpa [bind, Except.bind] using heq))
      | ok t =>
        simp only [bind, Except.bind]
        by_cases ht : t = 0
        · rw [if_pos ht]
          refine ⟨by simp, fun o ho hne => ?_⟩
          exact absurd (Except.ok.inj ho).symm hne
        rw [if_neg ht]
        have hfirst := firstChild_of_findChild hc htype hfind ht
        obtain ⟨-, -, -, -, -, -, -, hitem, hname⟩ := id hfirst
        by_cases hlast : cs = []
        · -- the path ends here
          subst hlast
          rw [if_neg fun hand => hand.1 rfl]
          refine ⟨by simp, fun o ho hne => ?_⟩
          obtain rfl := Except.ok.inj ho
          exact ⟨_, hfirst.edge, hname, rfl⟩
        · have hdirectory : (s.objects (s.lists t).item).header.type = 1 :=
            hfree [c] cs _ rfl hlast ⟨_, hfirst, rfl⟩
          have hrest : Unobstructed s (s.lists t).item cs := by
            intro pre post o hsplit hpost hnames
            exact hfree (c :: pre) post o (by rw [hsplit, List.cons_append]) hpost
              ⟨_, hfirst, hnames⟩
          rw [if_pos ⟨hlast, hdirectory⟩, pad_joinPath hfits]
          obtain ⟨hbuffer, hfollows⟩ :=
            ih hcs hlast hitem hdirectory hfits.tail hrest depth _
          exact ⟨hbuffer, fun o ho hne => ⟨_, hfirst.edge, hname, hfollows o ho hne⟩⟩

/-- **Obstruction**: with enough rounds and activations, the object in the way is returned. -/
theorem resolveObjectName_of_obstructed {pre post : List (List UInt8)}
    (hcomps : ∀ x ∈ pre ++ post, IsComponent x) (hpost : post ≠ []) (hroot : root ≠ 0)
    (htype : (s.objects root).header.type = 1) (hfits : Fits (pre ++ post))
    (hnames : Names s root pre o) (hobstacle : (s.objects o).header.type ≠ 1) :
    o ≠ 0 ∧ ∃ fuel₀, ∀ fuel, fuel₀ ≤ fuel → ∀ rest,
      resolveObjectName fuel s pre.length root
        (some (joinPath (pre ++ post) ++ 0 :: rest)) = .ok o := by
  induction pre generalizing root with
  | nil =>
    obtain rfl := hnames
    exact absurd htype hobstacle
  | cons c pre ih =>
    obtain ⟨child, hfirst, hrest⟩ := hnames
    have hc := hcomps c (List.mem_append_left _ (List.mem_cons_self ..))
    have hcs : ∀ x ∈ pre ++ post, IsComponent x :=
      fun x hx => hcomps x (List.mem_cons_of_mem c hx)
    have hmore : pre ++ post ≠ [] := by simp [hpost]
    obtain ⟨fuel₁, hfinds⟩ := hfirst.finds hc
    rw [List.cons_append] at hcomps hfits
    by_cases hdirectory : (s.objects child).header.type = 1
    · obtain ⟨ho, fuel₀, hresolve⟩ := ih hcs hfirst.nonnull hdirectory hfits.tail hrest
      refine ⟨ho, max fuel₀ fuel₁, fun fuel hfuel rest => ?_⟩
      rw [List.cons_append, List.length_cons,
        (hfinds fuel (le_of_max_le_right hfuel)).resolve hcomps hmore hroot hfits hdirectory,
        pad_joinPath hfits]
      exact hresolve fuel (le_of_max_le_left hfuel) _
    · -- the path cannot go on below a child that is no directory
      have hnil : pre = [] := by
        cases pre with
        | nil => rfl
        | cons c' pre =>
          obtain ⟨child, hnext, -⟩ := hrest
          exact absurd hnext.1 hdirectory
      subst hnil
      obtain rfl := hrest
      refine ⟨hfirst.nonnull, fuel₁, fun fuel hfuel rest => ?_⟩
      obtain ⟨t, hfind, ht, rfl⟩ := hfinds fuel hfuel
      rw [List.cons_append, List.length_cons, resolveObjectName_cons hcomps hroot, if_pos hfits, hfind]
      simp only [bind, Except.bind, if_neg ht, if_neg fun hand : _ ∧ _ => hdirectory hand.2]

/-- **Sound paths**: in a tree, the resolution of a path from a directory is sound exactly when
the part behind its first slash fits the buffer and no proper prefix of it names an object that
is no directory. -/
theorem sound_iff (htree : ObjectTree s root) (hroot : root ≠ 0)
    (htype : (s.objects root).header.type = 1) (hcomps : ∀ x ∈ comps, IsComponent x)
    (hne : comps ≠ []) : SoundPath s root comps ↔ Fits comps ∧ Unobstructed s root comps := by
  constructor
  · intro hsound
    have hfits : Fits comps := by
      by_contra hfits
      obtain ⟨c, cs, rfl⟩ := List.exists_cons_of_ne_nil hne
      apply (hsound 0 1 []).1
      rw [resolveObjectName_cons hcomps hroot, if_neg hfits]
    refine ⟨hfits, fun pre post o hsplit hpost hnames => ?_⟩
    by_contra hobstacle
    subst hsplit
    obtain ⟨ho, fuel, hresolve⟩ :=
      resolveObjectName_of_obstructed hcomps hpost hroot htype hfits hnames hobstacle
    -- the whole path would have to lead to the object in the way too
    have hfollows := (hsound fuel pre.length []).2 o (hresolve fuel le_rfl []) ho
    have hlevel := htree.level hfollows hnames.follows
    rw [List.length_append] at hlevel
    exact hpost (List.length_eq_zero_iff.mp (by omega))
  · rintro ⟨hfits, hfree⟩
    exact soundPath_of_unobstructed hcomps hne hroot htype hfits hfree

/-- The edges of the namespace of the kernel at boot. -/
theorem edge_bootDirectories (h : Edge bootDirectories d o) :
    d = 0x1000 ∧ (o = 0x1200 ∨ o = 0x1500) ∨ d = 0x1200 ∧ o = 0x1600 := by
  obtain ⟨htype, t, ⟨ht, nodes, hchain, hnodes⟩, rfl⟩ := h
  have hdirectory : d = 0x1000 ∨ d = 0x1200 := by
    simp only [bootDirectories, bootObjects] at htype
    split at htype
    · exact .inl rfl
    · exact .inr rfl
    all_goals exact absurd htype (by decide)
  rcases hdirectory with rfl | rfl
  · refine .inl ⟨rfl, ?_⟩
    -- the list has two entries
    cases nodes with
    | nil =>
      obtain rfl := hchain
      exact .inl rfl
    | cons x nodes =>
      obtain ⟨rfl, hchain⟩ := hchain
      cases nodes with
      | nil =>
        obtain rfl := hchain
        exact .inr rfl
      | cons y nodes =>
        obtain ⟨rfl, hchain⟩ := hchain
        cases nodes with
        | nil => exact absurd hchain.symm ht
        | cons z nodes =>
          obtain ⟨rfl, -⟩ := hchain
          have hend := hnodes _ (List.mem_cons_of_mem _ (List.mem_cons_of_mem _
            (List.mem_cons_self ..)))
          exact absurd rfl hend
  · refine .inr ⟨rfl, ?_⟩
    cases nodes with
    | nil =>
      obtain rfl := hchain
      rfl
    | cons x nodes =>
      obtain ⟨rfl, hchain⟩ := hchain
      cases nodes with
      | nil => exact absurd hchain.symm ht
      | cons y nodes =>
        obtain ⟨rfl, -⟩ := hchain
        have hend := hnodes _ (List.mem_cons_of_mem _ (List.mem_cons_self ..))
        exact absurd rfl hend

theorem bootDirectories_tree : ObjectTree bootDirectories 0x1000 where
  orphan d _ hedge := by
    have := edge_bootDirectories hedge
    omega
  parent d d' o _ _ hedge hedge' := by
    have := edge_bootDirectories hedge
    have := edge_bootDirectories hedge'
    omega

/-- The path `a/g`. -/
theorem sound_boot : SoundPath bootDirectories 0x1000 [[97], [103]] := by
  refine (sound_iff bootDirectories_tree (by decide) (by decide) (by decide) (by decide)).mpr
    ⟨by decide, fun pre post o hsplit hpost hnames => ?_⟩
  cases pre with
  | nil =>
    obtain rfl := hnames
    rfl
  | cons c pre =>
    obtain ⟨rfl, hsplit⟩ := List.cons.inj hsplit
    obtain ⟨child, hfirst, hrest⟩ := hnames
    cases pre with
    | nil =>
      obtain rfl := hrest
      obtain ⟨-, -, -, -, -, -, -, -, hname⟩ := id hfirst
      rcases edge_bootDirectories hfirst.edge with ⟨-, rfl | rfl⟩ | ⟨hd, -⟩
      · rfl
      · exact absurd hname (by decide)
      · exact absurd hd (by decide)
    | cons c' pre =>
      have hlen := congrArg List.length hsplit
      have hpos := List.length_pos_iff.mpr hpost
      simp only [List.length_append, List.length_cons, List.length_nil] at hlen
      omega

/-- The path `f/x` past a file resolves to the file. -/
theorem path_past_file :
    ObjectTree bootDirectories 0x1000 ∧ (∀ x ∈ [[102], [120]], IsComponent x) ∧
    resolveObjectName 8 bootDirectories 8 0x1000 (some [102, 47, 120, 0]) = .ok 0x1500 ∧
    ¬ SoundPath bootDirectories 0x1000 [[102], [120]] := by
  have hresolve : resolveObjectName 8 bootDirectories 8 0x1000 (some [102, 47, 120, 0]) =
      .ok 0x1500 := by decide +kernel
  refine ⟨bootDirectories_tree, by decide, hresolve, fun hsound => ?_⟩
  obtain ⟨child, hedge, -, child', hedge', -, rfl⟩ := (hsound 8 8 []).2 0x1500 hresolve (by decide)
  have := edge_bootDirectories hedge
  have := edge_bootDirectories hedge'
  omega

end Cutesugar.Kernel
