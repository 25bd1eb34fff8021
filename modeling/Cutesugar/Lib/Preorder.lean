import Mathlib.Data.Finite.Defs
import Mathlib.Data.List.Nodup
import Mathlib.Data.Set.Finite.Basic
import Mathlib.Logic.Relation
import Mathlib.Order.WellFounded
import Mathlib.Order.RelClasses
import Mathlib.Order.WellFoundedSet

/-!
# Walks without a visited set

A recursive function goes through the parts of a node in order: a part is an element that it emits, or
another node that it descends to, before it goes on. It does not remember where it has been. `preorder`
is what such a walk emits, with a bound on the nested calls.

- `exists_preorder_iff`: from finitely many nodes the walk returns exactly if no node that it can come to
  is on a cycle.
- `mem_preorder`: it emits what the nodes it can come to emit.
- `preorder_nodup_iff`: it emits nothing twice exactly if there is one way to each node that emits anything.
- `routes_unique_iff`: there is, if one part at most leads to such a node.
-/

namespace Cutesugar.Lib

open Relation

/-- A part of a node. -/
inductive Part (α β : Type*) where
  | emit (b : β)
  | descend (a : α)
  deriving DecidableEq

variable {α β : Type*} (parts : α → List (Part α β))

/-- What a part emits, if the walk from below it does. -/
def Part.emitted (below : α → Option (List β)) : Part α β → Option (List β)
  | .emit b => some [b]
  | .descend c => below c

/-- What the walk from a node emits. -/
def preorder : ℕ → α → Option (List β)
  | 0, _ => none
  | n + 1, a => ((parts a).mapM (Part.emitted (preorder n))).map List.flatten

/-- The walk goes from a node to another one. -/
def Descends (a c : α) : Prop := .descend c ∈ parts a

/-- The nodes that the walk from a node comes to. -/
abbrev Visited : α → α → Prop := ReflTransGen (Descends parts)

variable {parts} {a a' c r : α} {b : β} {bs : List β} {n : ℕ}

/-! ## Loops -/

/-- A loop returns as soon as every round does. -/
theorem mapM_isSome {γ δ : Type*} {f : γ → Option δ} {l : List γ} :
    (l.mapM f).isSome ↔ ∀ x ∈ l, (f x).isSome := by
  induction l with
  | nil => simp
  | cons x l ih =>
    rw [List.mapM_cons, List.forall_mem_cons, ← ih]
    cases hx : f x with
    | none => simp
    | some y => cases hl : l.mapM f <;> simp

/-- The results of the rounds of a loop that returns. -/
theorem mapM_eq_some {γ δ : Type*} {f : γ → Option δ} {l : List γ} {ys : List δ} (h : l.mapM f = some ys) :
    l.map f = ys.map some := by
  induction l generalizing ys with
  | nil =>
    obtain rfl := Option.some.inj h
    rfl
  | cons x l ih =>
    rw [List.mapM_cons] at h
    obtain ⟨y, hy, h⟩ := Option.bind_eq_some_iff.mp h
    obtain ⟨rest, hrest, hys⟩ := Option.bind_eq_some_iff.mp h
    obtain rfl := Option.some.inj hys
    rw [List.map_cons, List.map_cons, hy, ih hrest]

/-! ## Termination -/

theorem preorder_isSome_succ : (preorder parts (n + 1) a).isSome ↔
    ∀ c, Descends parts a c → (preorder parts n c).isSome := by
  rw [preorder, Option.isSome_map, mapM_isSome]
  constructor
  · exact fun h c hc => h _ hc
  · intro h p hp
    cases p with
    | emit b => rfl
    | descend c => exact h c hp

theorem preorder_isSome_mono {k : ℕ} (h : (preorder parts n a).isSome) (hle : n ≤ k) :
    (preorder parts k a).isSome := by
  induction n generalizing a k with
  | zero => cases h
  | succ n ih =>
    obtain ⟨k, rfl⟩ : ∃ j, k = j + 1 := ⟨k - 1, by omega⟩
    rw [preorder_isSome_succ] at h ⊢
    exact fun c hc => ih (h c hc) (Nat.le_of_succ_le_succ hle)

/-- **Termination**: the walk returns exactly from the nodes below which there is no infinite path. -/
theorem exists_preorder_iff_acc :
    (∃ n, (preorder parts n a).isSome) ↔ Acc (fun c a => Descends parts a c) a := by
  constructor
  · rintro ⟨n, h⟩
    induction n generalizing a with
    | zero => cases h
    | succ n ih => exact Acc.intro a fun c hc => ih (preorder_isSome_succ.mp h c hc)
  · intro h
    induction h with
    | intro a _ ih =>
      -- a bound for all the finitely many nodes below
      have hbound : ∀ l : List (Part α β), (∀ p ∈ l, p ∈ parts a) →
          ∃ n, ∀ c, .descend c ∈ l → (preorder parts n c).isSome := by
        intro l
        induction l with
        | nil => exact fun _ => ⟨0, fun c hc => absurd hc List.not_mem_nil⟩
        | cons p l ihl =>
          intro hl
          obtain ⟨n, hn⟩ := ihl fun q hq => hl q (List.mem_cons_of_mem p hq)
          cases p with
          | emit b =>
            refine ⟨n, fun c hc => hn c ?_⟩
            simpa using hc
          | descend c =>
            obtain ⟨k, hk⟩ := ih c (hl _ (List.mem_cons_self ..))
            refine ⟨max n k, fun c' hc' => ?_⟩
            rcases List.mem_cons.mp hc' with heq | hmem
            · obtain rfl := Part.descend.inj heq
              exact preorder_isSome_mono hk (le_max_right ..)
            · exact preorder_isSome_mono (hn c' hmem) (le_max_left ..)
      obtain ⟨n, hn⟩ := hbound (parts a) fun p hp => hp
      exact ⟨n + 1, preorder_isSome_succ.mpr hn⟩

/-- Where there is no infinite path, there is no cycle. -/
theorem acyclic_of_acc (h : Acc (fun c a => Descends parts a c) a) :
    ∀ c, Visited parts a c → ¬ TransGen (Descends parts) c c := by
  induction h with
  | intro a hacc ih =>
    intro c hc hcycle
    rcases ReflTransGen.cases_head hc with rfl | ⟨d, had, hdc⟩
    · -- the cycle leads through a node below, where there is none
      obtain ⟨d, had, hda⟩ := TransGen.head'_iff.mp hcycle
      exact ih d had a hda hcycle
    · exact ih d had c hdc hcycle

/-- Among finitely many nodes an infinite path comes to a cycle. -/
theorem acc_iff_acyclic [Finite α] : Acc (fun c a => Descends parts a c) a ↔
    ∀ c, Visited parts a c → ¬ TransGen (Descends parts) c c := by
  constructor
  · exact acyclic_of_acc
  · intro h
    -- below the node, paths are a strict order of a finite type
    have hwf : ∀ x : {x // Visited parts a x}, Acc (fun c d => TransGen (Descends parts) d.1 c.1) x := by
      have htrans : IsTrans {x // Visited parts a x} fun c d => TransGen (Descends parts) d.1 c.1 :=
        ⟨fun x y z hxy hyz => hyz.trans hxy⟩
      have hirrefl : Std.Irrefl fun c d : {x // Visited parts a x} =>
          TransGen (Descends parts) d.1 c.1 := ⟨fun x => h x.1 x.2⟩
      exact (Finite.wellFounded_of_trans_of_irrefl _).apply
    have hall : ∀ x : {x // Visited parts a x}, Acc (fun c a => Descends parts a c) x.1 := by
      intro x
      induction hwf x with
      | intro x _ ih =>
        exact Acc.intro x.1 fun c hc => ih ⟨c, x.2.tail hc⟩ (TransGen.single hc)
    exact hall ⟨a, ReflTransGen.refl⟩

/-- **Cycles**: the walk returns exactly if it comes to no node on a cycle. -/
theorem exists_preorder_iff [Finite α] : (∃ n, (preorder parts n a).isSome) ↔
    ∀ c, Visited parts a c → ¬ TransGen (Descends parts) c c :=
  exists_preorder_iff_acc.trans acc_iff_acyclic

/-! ## What is emitted -/

theorem mem_preorder_succ (h : preorder parts (n + 1) a = some bs) : b ∈ bs ↔
    .emit b ∈ parts a ∨ ∃ c cs, Descends parts a c ∧ preorder parts n c = some cs ∧ b ∈ cs := by
  rw [preorder] at h
  obtain ⟨results, hmap, rfl⟩ := Option.map_eq_some_iff.mp h
  have hresults := mapM_eq_some hmap
  have hmem (result : List β) :
      result ∈ results ↔ ∃ p ∈ parts a, p.emitted (preorder parts n) = some result := by
    rw [← List.mem_map_of_injective (Option.some_injective _), ← hresults, List.mem_map]
  rw [List.mem_flatten]
  constructor
  · rintro ⟨result, hresult, hb⟩
    obtain ⟨p, hp, heq⟩ := (hmem result).mp hresult
    cases p with
    | emit b' =>
      obtain rfl := Option.some.inj heq
      obtain rfl := List.mem_singleton.mp hb
      exact .inl hp
    | descend c => exact .inr ⟨c, result, hp, heq, hb⟩
  · rintro (hb | ⟨c, cs, hc, hcs, hb⟩)
    · exact ⟨[b], (hmem _).mpr ⟨_, hb, rfl⟩, List.mem_singleton_self b⟩
    · exact ⟨cs, (hmem _).mpr ⟨_, hc, hcs⟩, hb⟩

/-- **Completeness**: the walk emits exactly what the nodes it comes to emit. -/
theorem mem_preorder (h : preorder parts n a = some bs) :
    b ∈ bs ↔ ∃ c, Visited parts a c ∧ .emit b ∈ parts c := by
  induction n generalizing a bs with
  | zero => cases h
  | succ n ih =>
    have hsome := preorder_isSome_succ.mp (by rw [h]; rfl)
    rw [mem_preorder_succ h]
    constructor
    · rintro (hb | ⟨c, cs, hc, hcs, hb⟩)
      · exact ⟨a, ReflTransGen.refl, hb⟩
      · obtain ⟨d, hd, hemit⟩ := (ih hcs).mp hb
        exact ⟨d, ReflTransGen.head hc hd, hemit⟩
    · rintro ⟨d, hd, hemit⟩
      rcases ReflTransGen.cases_head hd with rfl | ⟨c, hc, hcd⟩
      · exact .inl hemit
      · obtain ⟨cs, hcs⟩ := Option.isSome_iff_exists.mp (hsome c hc)
        exact .inr ⟨c, cs, hc, hcs, (ih hcs).mpr ⟨d, hcd, hemit⟩⟩

/-! ## Repetition -/

variable (parts) in
/-- A way down from a node to another one: which part is taken at each node. -/
def Route : α → List ℕ → α → Prop
  | a, [], c => a = c
  | a, k :: l, c => ∃ d, (parts a)[k]? = some (.descend d) ∧ Route d l c

/-- What the part at a place emits, with the way there. -/
def Part.routed (below : α → List (List ℕ × ℕ × β)) : Part α β × ℕ → List (List ℕ × ℕ × β)
  | (.emit b, k) => [([], k, b)]
  | (.descend d, k) => (below d).map fun x => (k :: x.1, x.2)

variable (parts) in
/-- What the walk emits, each with the way to its node and its place there. -/
def routed : ℕ → α → List (List ℕ × ℕ × β)
  | 0, _ => []
  | n + 1, a => (parts a).zipIdx.flatMap (Part.routed (routed n))

theorem visited_iff_route : Visited parts a c ↔ ∃ l, Route parts a l c := by
  constructor
  · intro h
    induction h using ReflTransGen.head_induction_on with
    | refl => exact ⟨[], rfl⟩
    | head hab _ ih =>
      obtain ⟨l, hl⟩ := ih
      obtain ⟨k, hk⟩ := List.mem_iff_getElem?.mp hab
      exact ⟨k :: l, _, hk, hl⟩
  · rintro ⟨l, hl⟩
    induction l generalizing a with
    | nil =>
      obtain rfl := hl
      exact ReflTransGen.refl
    | cons k l ih =>
      obtain ⟨d, hk, hl⟩ := hl
      exact ReflTransGen.head (List.mem_of_getElem? hk) (ih hl)

theorem map_routed (h : preorder parts n a = some bs) : (routed parts n a).map (·.2.2) = bs := by
  induction n generalizing a bs with
  | zero => cases h
  | succ n ih =>
    rw [preorder] at h
    obtain ⟨results, hmap, rfl⟩ := Option.map_eq_some_iff.mp h
    have hresults := mapM_eq_some hmap
    rw [routed]
    clear hmap h
    -- part by part, whatever places are counted from
    generalize parts a = ps at hresults
    generalize 0 = start
    induction ps generalizing results start with
    | nil =>
      obtain rfl : results = [] := by simpa using hresults.symm
      rfl
    | cons p ps ihps =>
      cases results with
      | nil => simp at hresults
      | cons result results =>
        obtain ⟨hfirst, hrest⟩ := List.cons.inj hresults
        rw [List.zipIdx_cons, List.flatMap_cons, List.map_append, List.flatten_cons]
        congr 1
        · cases p with
          | emit b =>
            obtain rfl := Option.some.inj hfirst
            rfl
          | descend d =>
            rw [Part.routed, List.map_map]
            exact ih hfirst
        · exact ihps results hrest (start + 1)

/-- **Ways**: what the walk emits is told apart by where it comes from. -/
theorem mem_routed (h : (preorder parts n a).isSome) {l : List ℕ} {i : ℕ} :
    (l, i, b) ∈ routed parts n a ↔ ∃ c, Route parts a l c ∧ (parts c)[i]? = some (.emit b) := by
  induction n generalizing a l with
  | zero => cases h
  | succ n ih =>
    rw [preorder_isSome_succ] at h
    rw [routed, List.mem_flatMap]
    constructor
    · rintro ⟨⟨p, k⟩, hp, hmem⟩
      rw [List.mem_zipIdx_iff_getElem?] at hp
      cases p with
      | emit b' =>
        obtain ⟨rfl, hrest⟩ := Prod.mk.inj (List.mem_singleton.mp hmem)
        obtain ⟨rfl, rfl⟩ := Prod.mk.inj hrest
        exact ⟨a, rfl, hp⟩
      | descend d =>
        obtain ⟨⟨l', i', b'⟩, hx, heq⟩ := List.mem_map.mp hmem
        obtain ⟨rfl, hrest⟩ := Prod.mk.inj heq
        obtain ⟨rfl, rfl⟩ := Prod.mk.inj hrest
        obtain ⟨c, hroute, hemit⟩ := (ih (h d (List.mem_of_getElem? hp))).mp hx
        exact ⟨c, ⟨d, hp, hroute⟩, hemit⟩
    · rintro ⟨c, hroute, hemit⟩
      cases l with
      | nil =>
        obtain rfl := hroute
        exact ⟨(.emit b, i), List.mem_zipIdx_iff_getElem?.mpr hemit, List.mem_singleton_self _⟩
      | cons k l =>
        obtain ⟨d, hk, hroute⟩ := hroute
        refine ⟨(.descend d, k), List.mem_zipIdx_iff_getElem?.mpr hk, List.mem_map.mpr ⟨(l, i, b), ?_, rfl⟩⟩
        exact (ih (h d (List.mem_of_getElem? hk))).mpr ⟨c, hroute, hemit⟩

theorem routed_nodup : (routed parts n a).Nodup := by
  induction n generalizing a with
  | zero => exact List.nodup_nil
  | succ n ih =>
    rw [routed, List.nodup_flatMap]
    constructor
    · rintro ⟨p, k⟩ -
      cases p with
      | emit b => exact List.nodup_singleton _
      | descend d =>
        refine (ih (a := d)).map fun x y hxy => ?_
        obtain ⟨hl, hrest⟩ := Prod.mk.inj hxy
        exact Prod.ext (List.cons.inj hl).2 hrest
    · -- different parts have different places
      have hplaces : ((parts a).zipIdx).Pairwise fun x y => x.2 ≠ y.2 := by
        rw [← List.pairwise_map (R := fun i j => i ≠ j), List.zipIdx_map_snd]
        exact List.nodup_range'
      refine hplaces.imp fun {x y} hne z hx hy => ?_
      obtain ⟨p, k⟩ := x
      obtain ⟨q, k'⟩ := y
      have hplace {p : Part α β} {k : ℕ} (hz : z ∈ Part.routed (routed parts n) (p, k)) :
          (z.1 = [] ∧ z.2.1 = k) ∨ z.1.head? = some k := by
        cases p with
        | emit b =>
          obtain rfl := List.mem_singleton.mp hz
          exact .inl ⟨rfl, rfl⟩
        | descend d =>
          obtain ⟨w, -, rfl⟩ := List.mem_map.mp hz
          exact .inr rfl
      rcases hplace hx with ⟨hnil, hk⟩ | hhead
      · rcases hplace hy with ⟨-, hk'⟩ | hhead'
        · exact hne (hk.symm.trans hk')
        · rw [hnil] at hhead'
          cases hhead'
      · rcases hplace hy with ⟨hnil, -⟩ | hhead'
        · rw [hnil] at hhead
          cases hhead
        · exact hne (Option.some.inj (hhead.symm.trans hhead'))

/-- **Repetition**: where an element is emitted by one part of one node only, nothing is emitted twice
exactly if there is one way to each node that emits anything. -/
theorem preorder_nodup_iff (h : preorder parts n a = some bs)
    (hown : ∀ (c c' : α) (i i' : ℕ) (b : β), (parts c)[i]? = some (.emit b) →
      (parts c')[i']? = some (.emit b) → c = c' ∧ i = i') :
    bs.Nodup ↔ ∀ c l l', Route parts a l c → Route parts a l' c → (∃ b, .emit b ∈ parts c) → l = l' := by
  have hsome : (preorder parts n a).isSome := by
    rw [h]
    rfl
  rw [← map_routed h, List.nodup_map_iff_inj_on routed_nodup]
  constructor
  · rintro hinj c l l' hl hl' ⟨b, hb⟩
    obtain ⟨i, hi⟩ := List.mem_iff_getElem?.mp hb
    have hsame := hinj (l, i, b) ((mem_routed hsome).mpr ⟨c, hl, hi⟩) (l', i, b)
      ((mem_routed hsome).mpr ⟨c, hl', hi⟩) rfl
    exact (Prod.mk.inj hsame).1
  · rintro hroutes ⟨l, i, b⟩ hx ⟨l', i', b'⟩ hy hb
    obtain rfl : b = b' := hb
    obtain ⟨c, hl, hi⟩ := (mem_routed hsome).mp hx
    obtain ⟨c', hl', hi'⟩ := (mem_routed hsome).mp hy
    obtain ⟨rfl, rfl⟩ := hown c c' i i' b hi hi'
    rw [hroutes c l l' hl hl' ⟨b, List.mem_of_getElem? hi⟩]

/-! ## Ways -/

theorem Route.unique {l : List ℕ} {c' : α} (h : Route parts a l c) (h' : Route parts a l c') : c = c' := by
  induction l generalizing a with
  | nil => exact h.symm.trans h'
  | cons k l ih =>
    obtain ⟨d, hk, hl⟩ := h
    obtain ⟨d', hk', hl'⟩ := h'
    obtain rfl := Part.descend.inj (Option.some.inj (hk.symm.trans hk'))
    exact ih hl hl'

/-- A way is followed from its end as well. -/
theorem route_concat {l : List ℕ} {k : ℕ} : Route parts a (l ++ [k]) c ↔
    ∃ d, Route parts a l d ∧ (parts d)[k]? = some (.descend c) := by
  induction l generalizing a with
  | nil =>
    constructor
    · rintro ⟨d, hk, rfl⟩
      exact ⟨a, rfl, hk⟩
    · rintro ⟨d, rfl, hk⟩
      exact ⟨c, hk, rfl⟩
  | cons j l ih =>
    constructor
    · rintro ⟨d, hj, hrest⟩
      obtain ⟨e, hl, hk⟩ := ih.mp hrest
      exact ⟨e, ⟨d, hj, hl⟩, hk⟩
    · rintro ⟨e, ⟨d, hj, hl⟩, hk⟩
      exact ⟨d, hj, ih.mpr ⟨e, hl, hk⟩⟩

/-- Where no node is on a cycle, no way leads back to its start. -/
theorem Route.eq_nil {l : List ℕ} (h : Route parts a l a) (hacyclic : ¬ TransGen (Descends parts) a a) :
    l = [] := by
  cases l with
  | nil => rfl
  | cons k l =>
    obtain ⟨d, hk, hl⟩ := h
    exact absurd (TransGen.head' (List.mem_of_getElem? hk) (visited_iff_route.mpr ⟨l, hl⟩)) hacyclic

/-- **One way**: without cycles there is one way to each node that emits anything exactly if there is one
part that leads there, as long as nodes with parts that lead on emit something. -/
theorem routes_unique_iff (hacyclic : ∀ c, Visited parts a c → ¬ TransGen (Descends parts) c c)
    (hemits : ∀ d c, Descends parts d c → ∃ b, .emit b ∈ parts d) :
    (∀ c l l', Route parts a l c → Route parts a l' c → (∃ b, .emit b ∈ parts c) → l = l') ↔
      ∀ (c d d' : α) (k k' : ℕ), Visited parts a d → Visited parts a d' → (parts d)[k]? = some (.descend c) →
        (parts d')[k']? = some (.descend c) → (∃ b, .emit b ∈ parts c) → d = d' ∧ k = k' := by
  constructor
  · intro hunique c d d' k k' hd hd' hk hk' hb
    obtain ⟨l, hl⟩ := visited_iff_route.mp hd
    obtain ⟨l', hl'⟩ := visited_iff_route.mp hd'
    have hsame : l ++ [k] = l' ++ [k'] :=
      hunique c _ _ (route_concat.mpr ⟨d, hl, hk⟩) (route_concat.mpr ⟨d', hl', hk'⟩) hb
    obtain ⟨rfl, hlast⟩ := List.append_inj' hsame rfl
    exact ⟨hl.unique hl', (List.cons.inj hlast).1⟩
  · intro hlast c l l' hl hl' hb
    induction l using List.reverseRecOn generalizing c l' with
    | nil =>
      obtain rfl := hl
      exact (hl'.eq_nil (hacyclic _ ReflTransGen.refl)).symm
    | append_singleton l k ih =>
      rcases List.eq_nil_or_concat' l' with rfl | ⟨l', k', rfl⟩
      · obtain rfl := hl'
        exact hl.eq_nil (hacyclic _ ReflTransGen.refl)
      · -- both come from one node, to which there is one way
        obtain ⟨d, hd, hk⟩ := route_concat.mp hl
        obtain ⟨d', hd', hk'⟩ := route_concat.mp hl'
        obtain ⟨rfl, rfl⟩ := hlast c d d' k k' (visited_iff_route.mpr ⟨l, hd⟩)
          (visited_iff_route.mpr ⟨l', hd'⟩) hk hk' hb
        rw [ih d l' hd hd' (hemits d c (List.mem_of_getElem? hk))]

end Cutesugar.Lib
