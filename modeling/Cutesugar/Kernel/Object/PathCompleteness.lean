import Cutesugar.Kernel.Object.PathSoundness

/-!
# Completeness of path resolution

In a tree whose siblings have distinct short names, the path of an object resolves to it. A path
that starts from the root object with `./` has to fit into the buffer `remaining` as a whole.

## Structure

- `NamedTree`: the trees; `Resolves`: resolution with enough rounds and activations.
- `resolves_of_follows`: paths from a directory.
- `Privileged`, `resolves_dot_iff`: paths from the root object.
-/

namespace Cutesugar.Kernel

open Lib Libc

variable {s : State} {d o start fuel depth : ℕ} {c : List UInt8}
  {cs comps : List (List UInt8)}

/-! ## Trees with distinct names -/

/-- Every object below `root` has a component for its name, and siblings have distinct names. -/
structure NamedTree (s : State) (root : ℕ) : Prop where
  named : ∀ d t, Reach s root d → (s.objects d).header.type = 1 → ListNode s d t →
    (s.lists t).item ≠ 0 ∧ IsComponent (objectName s (s.lists t).item)
  distinct : ∀ d t t', Reach s root d → (s.objects d).header.type = 1 → ListNode s d t →
    ListNode s d t' → objectName s (s.lists t).item = objectName s (s.lists t').item →
    (s.lists t).item = (s.lists t').item

/-- With enough rounds and activations the name resolves to the object, whatever stands behind
its NUL. -/
def Resolves (s : State) (d : ℕ) (name : List UInt8) (o : ℕ) : Prop :=
  ∃ fuel₀ depth₀, ∀ fuel depth, fuel₀ ≤ fuel → depth₀ ≤ depth → ∀ rest,
    resolveObjectName fuel s depth d (some (name ++ 0 :: rest)) = .ok o

theorem NamedTree.child (h : NamedTree s d) (hedge : Edge s d o) : NamedTree s o :=
  ⟨fun d' t hreach => h.named d' t (hreach.head hedge),
    fun d' t t' hreach => h.distinct d' t t' (hreach.head hedge)⟩

/-- The components of a path in the tree. -/
theorem NamedTree.components (h : NamedTree s d) (hcs : Follows s d cs o) :
    ∀ c ∈ cs, IsComponent c := by
  induction cs generalizing d with
  | nil => exact fun c hc => absurd hc List.not_mem_nil
  | cons c cs ih =>
    obtain ⟨child, hedge, hname, hrest⟩ := hcs
    intro x hx
    rcases List.mem_cons.mp hx with rfl | hx
    · obtain ⟨htype, t, ht, rfl⟩ := hedge
      rw [← hname]
      exact (h.named d t Relation.ReflTransGen.refl htype ht).2
    · exact ih (h.child hedge) hrest x hx

/-- **Search in a tree**: from some number of rounds on the search finds the child. -/
theorem NamedTree.findChild (h : NamedTree s d) (hedge : Edge s d o)
    (hname : objectName s o = c) (hc : IsComponent c) :
    ∃ fuel₀, ∀ fuel, fuel₀ ≤ fuel →
      ∃ t, Kernel.findChild s (pad 32 c) fuel (s.objects d).headerList = .ok t ∧ t ≠ 0 ∧
        (s.lists t).item = o := by
  obtain ⟨htype, t, ht, rfl⟩ := hedge
  have hlen : c.length < 32 := Nat.lt_succ_of_le hc.length
  have hpad : (pad 32 c).length = 32 := length_pad hlen.le
  have hcString : cString (pad 32 c) = c := cString_pad hlen hc.nul
  have hitem := (h.named d t Relation.ReflTransGen.refl htype ht).1
  have hchild : childName s (s.lists t).item = cString (pad 32 c) := by
    rw [hcString]
    exact (childName_eq_iff hlen).mpr hname
  obtain ⟨ht0, nodes, hchain, hnodes⟩ := id ht
  -- the entries in front are entries of the list too
  have hfront : ∀ x ∈ nodes, x ≠ 0 ∧ (s.lists x).item ≠ 0 := by
    intro x hx
    obtain ⟨pre, post, rfl⟩ := List.append_of_mem hx
    obtain ⟨b, hpre, hrest⟩ := chain_append.mp hchain
    obtain ⟨rfl, -⟩ := hrest
    have hnode : ListNode s d b :=
      ⟨hnodes b hx, pre, hpre, fun y hy => hnodes y (List.mem_append_left _ hy)⟩
    exact ⟨hnodes b hx, (h.named d b Relation.ReflTransGen.refl htype hnode).1⟩
  refine ⟨nodes.length + 1, fun fuel hfuel => ?_⟩
  obtain ⟨t', hfind, ht'⟩ := findChild_finds hpad hchain hfront ht0 hitem hchild hfuel
  refine ⟨t', hfind, ht', ?_⟩
  have hnode := findChild_listNode hpad hfind ht'
  have hfirst := ((findChild_spec hpad hfind).2 ht').2
  rw [hcString] at hfirst
  apply h.distinct d t' t Relation.ReflTransGen.refl htype hnode ht
  rw [hname]
  exact (childName_eq_iff hlen).mp hfirst

/-! ## Paths from a directory -/

/-- **Completeness**: a path of the tree that fits resolves to its object. -/
theorem resolves_of_follows (h : NamedTree s d) (hd : d ≠ 0) (hfollows : Follows s d comps o)
    (hne : comps ≠ []) (hfits : Fits comps) : Resolves s d (joinPath comps) o := by
  induction comps generalizing d with
  | nil => exact absurd rfl hne
  | cons c cs ih =>
    have hcomps := h.components hfollows
    obtain ⟨child, hedge, hname, hrest⟩ := hfollows
    have hc := hcomps c (List.mem_cons_self ..)
    obtain ⟨fuel₁, hfind⟩ := h.findChild hedge hname hc
    cases cs with
    | nil =>
      -- the last component
      obtain rfl := hrest
      refine ⟨fuel₁, 1, fun fuel depth hfuel hdepth rest => ?_⟩
      obtain ⟨depth, rfl⟩ : ∃ k, depth = k + 1 := ⟨depth - 1, by omega⟩
      obtain ⟨t, ht, ht0, hitem⟩ := hfind fuel hfuel
      rw [resolveObjectName_cons hcomps hd, if_pos hfits, ht]
      simp only [bind, Except.bind, if_neg ht0, hitem]
      exact if_neg fun hand => hand.1 rfl
    | cons c' cs =>
      -- the child is a directory, since the path goes on below it
      have hdirectory : (s.objects child).header.type = 1 := by
        obtain ⟨_, hnext, -⟩ := hrest
        exact hnext.1
      have hchild : child ≠ 0 := by
        obtain ⟨htype, t, ht, rfl⟩ := hedge
        exact (h.named d t Relation.ReflTransGen.refl htype ht).1
      obtain ⟨fuel₂, depth₂, hresolve⟩ :=
        ih (h.child hedge) hchild hrest (List.cons_ne_nil _ _) hfits.tail
      refine ⟨max fuel₁ fuel₂, depth₂ + 1, fun fuel depth hfuel hdepth rest => ?_⟩
      obtain ⟨depth, rfl⟩ : ∃ k, depth = k + 1 := ⟨depth - 1, by omega⟩
      obtain ⟨t, ht, ht0, hitem⟩ := hfind fuel (by omega)
      have hgoes : c' :: cs ≠ [] ∧ (s.objects (s.lists t).item).header.type = 1 :=
        ⟨List.cons_ne_nil _ _, hitem ▸ hdirectory⟩
      rw [resolveObjectName_cons hcomps hd, if_pos hfits, ht]
      simp only [bind, Except.bind, if_neg ht0]
      rw [if_pos hgoes, hitem, pad_joinPath hfits]
      exact hresolve fuel depth (by omega) (by omega) _

/-! ## Paths from the root object -/

/-- The check of the permission grants the root object to the current process. -/
def Privileged (s : State) : Prop := ∃ fuel, kernelCheckToken fuel s 1 = some 1

/-- A resolution can start here: at a directory, or at the working directory of a process. -/
def Starts (s : State) (start : ℕ) : Prop := start ≠ 0 ∨ getCurrentProcess s ≠ 0

theorem kernelCheckToken_mono {fuel' r : ℕ} {permission : UInt8}
    (h : kernelCheckToken fuel s permission = some r) (hle : fuel ≤ fuel') :
    kernelCheckToken fuel' s permission = some r := by
  unfold kernelCheckToken at h ⊢
  dsimp only at h ⊢
  split_ifs at h ⊢ with hid
  · exact h
  · obtain ⟨task, hfind, hrest⟩ := Option.bind_eq_some_iff.mp h
    obtain ⟨node, hnode, htask⟩ := Option.map_eq_some_iff.mp hfind
    have hfind' : findProcess fuel' s (getCurrentProcessId s) = some task := by
      rw [findProcess, findNode, walk_mono hnode hle, Option.map_some, htask]
    rw [hfind']
    exact hrest

theorem Privileged.objGetRootObject (h : Privileged s) :
    ∃ fuel₀, ∀ fuel, fuel₀ ≤ fuel → Kernel.objGetRootObject fuel s = some s.rootObject := by
  obtain ⟨fuel₀, hcheck⟩ := h
  refine ⟨fuel₀, fun fuel hle => ?_⟩
  rw [Kernel.objGetRootObject, kernelCheckToken_mono hcheck hle]
  rfl

theorem Starts.startDirectory (h : Starts s start) : ∃ r, Kernel.startDirectory s start = .ok r := by
  unfold Kernel.startDirectory currentCwd
  split_ifs with hzero hprocess
  · exact absurd h (by simp [Starts, hzero, hprocess])
  · exact ⟨_, rfl⟩
  · exact ⟨_, rfl⟩

/-- **The single dot** goes on at the root object, if what follows fits the buffer. -/
theorem resolveObjectName_dot (hstart : Starts s start)
    (hroot : objGetRootObject fuel s = some s.rootObject) {r : List UInt8} (hr : 0 ∉ r)
    (rest : List UInt8) :
    resolveObjectName fuel s (depth + 1) start (some ([46, 47] ++ r ++ 0 :: rest)) =
      if r.length ≤ 255 then resolveObjectName fuel s depth s.rootObject (some (pad 256 r))
      else .error .overflow := by
  obtain ⟨d, hd⟩ := hstart.startDirectory
  have hsplit : splitName ([46] ++ 47 :: (r ++ 0 :: rest)) = _ :=
    splitName_more (by decide) (by decide) (by decide) hr
  have hdot : strncmp (pad 32 [46]) [46, 0] 32 = .ok 0 := by decide
  have hname : [46, 47] ++ r ++ 0 :: rest = [46] ++ 47 :: (r ++ 0 :: rest) := by simp
  rw [resolveObjectName, hd, hname, hsplit]
  split_ifs with hfits
  · simp only [bind, Except.bind, hdot, if_true, hroot]
    rfl
  · rfl

/-- **Paths from the root object**: the path of an object behind `./` resolves to it from
everywhere exactly when it has at most 255 bytes. -/
theorem resolves_dot_iff (hpriv : Privileged s) (h : NamedTree s s.rootObject)
    (hroot : s.rootObject ≠ 0) (hfollows : Follows s s.rootObject comps o) (hne : comps ≠ []) :
    (∀ start, Starts s start → Resolves s start ([46, 47] ++ joinPath comps) o) ↔
      (joinPath comps).length ≤ 255 := by
  obtain ⟨fuel₁, hobject⟩ := hpriv.objGetRootObject
  have hnul := joinPath_nul (h.components hfollows)
  constructor
  · intro hresolves
    by_contra hlong
    obtain ⟨fuel₀, depth₀, hall⟩ := hresolves s.rootObject (.inl hroot)
    have hone := hall (max fuel₀ fuel₁) (depth₀ + 1) (le_max_left ..) (Nat.le_succ _) []
    rw [resolveObjectName_dot (.inl hroot) (hobject _ (le_max_right ..)) hnul, if_neg hlong] at hone
    exact absurd hone (by simp)
  · intro hshort start hstart
    have hfits : Fits comps := by
      obtain ⟨c, cs, rfl⟩ := List.exists_cons_of_ne_nil hne
      cases cs with
      | nil => exact Nat.zero_le _
      | cons c' cs =>
        rw [joinPath_cons (List.cons_ne_nil _ _), List.length_append, List.length_cons] at hshort
        rw [Fits, List.tail_cons]
        omega
    obtain ⟨fuel₂, depth₂, hresolve⟩ := resolves_of_follows h hroot hfollows hne hfits
    refine ⟨max fuel₁ fuel₂, depth₂ + 1, fun fuel depth hfuel hdepth rest => ?_⟩
    obtain ⟨depth, rfl⟩ : ∃ k, depth = k + 1 := ⟨depth - 1, by omega⟩
    rw [resolveObjectName_dot hstart (hobject fuel (by omega)) hnul, if_pos hshort,
      pad_eq (Nat.lt_succ_of_le hshort)]
    exact hresolve fuel depth (by omega) (by omega) _

/-- **Completeness of resolution**: the path of an object from a directory resolves to it if its
part behind the first slash fits the buffer; and where the process may access the root object,
its path from there resolves to it behind `./` exactly when it fits the buffer as a whole. -/
theorem resolveObjectName_complete (h : NamedTree s d) (hd : d ≠ 0)
    (hfollows : Follows s d comps o) (hne : comps ≠ []) (hfits : Fits comps) :
    Resolves s d (joinPath comps) o ∧
      ∀ comps', Privileged s → NamedTree s s.rootObject → s.rootObject ≠ 0 →
        Follows s s.rootObject comps' o → comps' ≠ [] →
        ((∀ start, Starts s start → Resolves s start ([46, 47] ++ joinPath comps') o) ↔
          (joinPath comps').length ≤ 255) :=
  ⟨resolves_of_follows h hd hfollows hne hfits,
    fun _ hpriv htree hroot hfollows' hne' => resolves_dot_iff hpriv htree hroot hfollows' hne'⟩

theorem bootDirectories_named : NamedTree bootDirectories 0x1000 where
  named d t _ htype ht := by
    rcases edge_bootDirectories ⟨htype, t, ht, rfl⟩ with ⟨-, hitem | hitem⟩ | ⟨-, hitem⟩
    · rw [hitem]
      decide
    · rw [hitem]
      decide
    · rw [hitem]
      decide
  distinct d t t' _ htype ht ht' hname := by
    rcases edge_bootDirectories ⟨htype, t, ht, rfl⟩ with ⟨hd, hitem⟩ | ⟨hd, hitem⟩
    · rcases edge_bootDirectories ⟨htype, t', ht', rfl⟩ with ⟨-, hitem'⟩ | ⟨hd', -⟩
      · -- the two children of the root object have different names
        rcases hitem with hitem | hitem
        · rcases hitem' with hitem' | hitem'
          · rw [hitem, hitem']
          · rw [hitem, hitem'] at hname
            exact absurd hname (by decide)
        · rcases hitem' with hitem' | hitem'
          · rw [hitem, hitem'] at hname
            exact absurd hname (by decide)
          · rw [hitem, hitem']
      · exact absurd (hd.symm.trans hd') (by decide)
    · rcases edge_bootDirectories ⟨htype, t', ht', rfl⟩ with ⟨hd', -⟩ | ⟨-, hitem'⟩
      · exact absurd (hd.symm.trans hd') (by decide)
      · rw [hitem, hitem']

theorem follows_bootDirectories : Follows bootDirectories 0x1000 [[97], [103]] 0x1600 := by
  have hedge : Edge bootDirectories 0x1000 0x1200 :=
    ⟨by decide, 0x1100, ⟨by decide, [], rfl, by simp⟩, rfl⟩
  have hedge' : Edge bootDirectories 0x1200 0x1600 :=
    ⟨by decide, 0x1400, ⟨by decide, [], rfl, by simp⟩, rfl⟩
  exact ⟨0x1200, hedge, by decide, 0x1600, hedge', by decide, rfl⟩

/-- The paths `a/g` and `./a/g`. -/
theorem complete_boot :
    Resolves bootDirectories 0x1000 (joinPath [[97], [103]]) 0x1600 ∧
      ∀ start, Starts bootDirectories start →
        Resolves bootDirectories start ([46, 47] ++ joinPath [[97], [103]]) 0x1600 := by
  obtain ⟨hpath, hdot⟩ := resolveObjectName_complete bootDirectories_named (by decide)
    follows_bootDirectories (by decide) (by decide)
  exact ⟨hpath, (hdot _ ⟨0, by decide⟩ bootDirectories_named (by decide) follows_bootDirectories
    (by decide)).mpr (by decide)⟩

/-- Ten directories, each the only child of the one before, with names of 31 bytes. -/
def deepName : List UInt8 := List.replicate 31 97

def deepDirectories : State :=
  { bootDirectories with
    objects := fun p => ⟨⟨nameField deepName (by decide), 1⟩, if p < 10 then p + 1 else 0⟩
    lists := fun t => ⟨t, 0⟩
    rootObject := 1 }

theorem listNode_deepDirectories (h : ListNode deepDirectories d t) : d < 10 ∧ t = d + 1 := by
  obtain ⟨ht, nodes, hchain, hnodes⟩ := h
  have hhead : (deepDirectories.objects d).headerList = if d < 10 then d + 1 else 0 := rfl
  cases nodes with
  | nil =>
    obtain rfl := hchain
    rw [hhead] at ht ⊢
    split_ifs at ht ⊢ with hd
    · exact ⟨hd, rfl⟩
    · exact absurd rfl ht
  | cons x nodes =>
    -- behind the only entry the list ends
    obtain ⟨-, hrest⟩ := hchain
    cases nodes with
    | nil => exact absurd hrest.symm ht
    | cons y nodes =>
      obtain ⟨hy, -⟩ := hrest
      exact absurd hy.symm (hnodes y (List.mem_cons_of_mem x (List.mem_cons_self ..)))

theorem deepDirectories_named : NamedTree deepDirectories 1 where
  named d t _ _ ht := by
    obtain ⟨-, rfl⟩ := listNode_deepDirectories ht
    exact ⟨Nat.succ_ne_zero d, (by decide : IsComponent (cString (pad 64 deepName)))⟩
  distinct d t t' _ _ ht ht' _ := by
    rw [(listNode_deepDirectories ht).2, (listNode_deepDirectories ht').2]

theorem follows_deepDirectories {k : ℕ} (h : d + k ≤ 10) :
    Follows deepDirectories d (List.replicate k deepName) (d + k) := by
  induction k generalizing d with
  | zero => rfl
  | succ k ih =>
    have hhead : (deepDirectories.objects d).headerList = d + 1 := if_pos (by omega)
    have hedge : Edge deepDirectories d (d + 1) :=
      ⟨rfl, d + 1, ⟨Nat.succ_ne_zero d, [], hhead, by simp⟩, rfl⟩
    have hrest := ih (d := d + 1) (by omega)
    rw [Nat.add_right_comm] at hrest
    exact ⟨d + 1, hedge, (by decide : cString (pad 64 deepName) = deepName), hrest⟩

/-- The last of the ten has a path of 31 bytes from its parent and one of 287 bytes from the root
object, and the latter is written over the end of the buffer. -/
theorem deep_path_overflows :
    NamedTree deepDirectories deepDirectories.rootObject ∧ Privileged deepDirectories ∧
    (Follows deepDirectories 9 [deepName] 10 ∧ Fits [deepName]) ∧
    Follows deepDirectories 1 (List.replicate 9 deepName) 10 ∧
    resolveObjectName 16 deepDirectories 16 1
      (some ([46, 47] ++ joinPath (List.replicate 9 deepName) ++ [0])) = .error .overflow ∧
    ¬ ∀ start, Starts deepDirectories start →
      Resolves deepDirectories start ([46, 47] ++ joinPath (List.replicate 9 deepName)) 10 := by
  have hpriv : Privileged deepDirectories := ⟨0, by decide⟩
  have hfollows : Follows deepDirectories 1 (List.replicate 9 deepName) 10 :=
    follows_deepDirectories (d := 1) (k := 9) (by decide)
  have hnul : 0 ∉ joinPath (List.replicate 9 deepName) :=
    joinPath_nul (deepDirectories_named.components hfollows)
  have hlong : ¬ (joinPath (List.replicate 9 deepName)).length ≤ 255 := by decide +kernel
  have hroot : objGetRootObject 16 deepDirectories = some deepDirectories.rootObject := rfl
  have hstart : Starts deepDirectories 1 := .inl one_ne_zero
  have hoverflow : resolveObjectName 16 deepDirectories (15 + 1) 1
      (some ([46, 47] ++ joinPath (List.replicate 9 deepName) ++ [0])) = _ :=
    resolveObjectName_dot hstart hroot hnul []
  rw [if_neg hlong] at hoverflow
  refine ⟨deepDirectories_named, hpriv,
    ⟨follows_deepDirectories (d := 9) (k := 1) (by decide), by decide⟩, hfollows, hoverflow,
    fun hresolves => ?_⟩
  have hshort := (resolves_dot_iff hpriv deepDirectories_named (by decide) hfollows
    (by decide)).mp hresolves
  exact hlong hshort

end Cutesugar.Kernel
