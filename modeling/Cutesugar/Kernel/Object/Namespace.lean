import Cutesugar.Kernel.Object.PathName
import Cutesugar.Lib.Chain
import Mathlib.Logic.Relation

/-!
# The namespace

Objects are the nodes of a graph whose edges go from a directory to the items of its header list.
The search of `ResolveObjectName` walks one header list and stops at the first item with the name
it looks for.
-/

namespace Cutesugar.Kernel

open Lib Libc

variable {s s' : State} {d o t a fuel : ℕ} {c objName : List UInt8}

/-! ## Edges -/

/-- The link of a header list. -/
abbrev State.nextEntry (s : State) (t : ℕ) : ℕ := (s.lists t).next

/-- An entry of the header list of an object. -/
def ListNode (s : State) (d t : ℕ) : Prop :=
  t ≠ 0 ∧ ∃ nodes, Chain s.nextEntry (s.objects d).headerList nodes t ∧ ∀ x ∈ nodes, x ≠ 0

/-- An item of the header list of a directory. -/
def Edge (s : State) (d o : ℕ) : Prop :=
  (s.objects d).header.type = 1 ∧ ∃ t, ListNode s d t ∧ (s.lists t).item = o

/-- Reachable through header lists. -/
def Reach (s : State) : ℕ → ℕ → Prop := Relation.ReflTransGen (Edge s)

/-- The name that the 32 bytes which are compared hold. -/
def childName (s : State) (o : ℕ) : List UInt8 :=
  cString ((s.objects o).header.name.toList.take 32)

/-- The name of an object. -/
def objectName (s : State) (o : ℕ) : List UInt8 := cString (s.objects o).header.name.toList

/-- The comparison sees short names as they are. -/
theorem childName_eq_iff (hc : c.length < 32) : childName s o = c ↔ objectName s o = c :=
  cString_take_eq_iff hc

theorem ListNode.head (h : (s.objects d).headerList ≠ 0) :
    ListNode s d (s.objects d).headerList :=
  ⟨h, [], rfl, by simp⟩

theorem ListNode.next (h : ListNode s d t) (hnext : s.nextEntry t ≠ 0) :
    ListNode s d (s.nextEntry t) := by
  obtain ⟨ht, nodes, hchain, hnodes⟩ := h
  refine ⟨hnext, nodes ++ [t], chain_append.mpr ⟨t, hchain, rfl, rfl⟩, fun x hx => ?_⟩
  rcases List.mem_append.mp hx with hx | hx
  · exact hnodes x hx
  · rw [List.mem_singleton.mp hx]
    exact ht

/-- The graph is made of the objects and the header lists. -/
theorem listNode_congr (hobjects : s'.objects = s.objects) (hlists : s'.lists = s.lists) :
    ListNode s' = ListNode s := by
  funext d t
  have hnext : s'.nextEntry = s.nextEntry := by
    funext x
    rw [State.nextEntry, State.nextEntry, hlists]
  rw [ListNode, ListNode, hobjects, hnext]

theorem edge_congr (hobjects : s'.objects = s.objects) (hlists : s'.lists = s.lists) :
    Edge s' = Edge s := by
  funext d o
  rw [Edge, Edge, hobjects, hlists, listNode_congr hobjects hlists]

theorem reach_congr (hobjects : s'.objects = s.objects) (hlists : s'.lists = s.lists) :
    Reach s' = Reach s := by
  rw [Reach, Reach, edge_congr hobjects hlists]

/-! ## Search -/

/-- The comparison of one entry. -/
theorem strncmp_childName (hlen : objName.length = 32) (o : ℕ) :
    ∃ v, strncmp (s.objects o).header.name.toList objName 32 = .ok v ∧
      (v = 0 ↔ childName s o = cString objName) := by
  have hname : 32 ≤ (s.objects o).header.name.toList.length := by
    rw [List.Vector.toList_length]
    decide
  obtain ⟨v, hv, hiff⟩ := strncmp_spec (.inl hname) (.inl hlen.ge)
  refine ⟨v, hv, ?_⟩
  rw [hiff, List.take_of_length_le hlen.le]
  rfl

/-- **What the search returns**: the first entry with the name, or the end of the list. -/
theorem findChild_spec (hlen : objName.length = 32) (h : findChild s objName fuel a = .ok t) :
    (∃ nodes, Chain s.nextEntry a nodes t ∧
      ∀ x ∈ nodes, x ≠ 0 ∧ (s.lists x).item ≠ 0 ∧
        childName s (s.lists x).item ≠ cString objName) ∧
    (t ≠ 0 → (s.lists t).item ≠ 0 ∧ childName s (s.lists t).item = cString objName) := by
  induction fuel generalizing a with
  | zero =>
    rw [findChild] at h
    split_ifs at h with ha
    obtain rfl := Except.ok.inj h
    exact ⟨⟨[], ha, by simp⟩, fun ht => absurd rfl ht⟩
  | succ fuel ih =>
    rw [findChild] at h
    split_ifs at h with ha hitem
    · obtain rfl := Except.ok.inj h
      exact ⟨⟨[], ha, by simp⟩, fun ht => absurd rfl ht⟩
    · obtain ⟨v, hv, hiff⟩ := strncmp_childName (s := s) hlen (s.lists a).item
      simp only [hv, bind, Except.bind] at h
      split_ifs at h with hzero
      · obtain rfl := Except.ok.inj h
        exact ⟨⟨[], rfl, by simp⟩, fun _ => ⟨hitem, hiff.mp hzero⟩⟩
      · -- the entry passed is one more node of the chain
        obtain ⟨⟨nodes, hchain, hnodes⟩, hlast⟩ := ih h
        refine ⟨⟨a :: nodes, ⟨rfl, hchain⟩, fun x hx => ?_⟩, hlast⟩
        rcases List.mem_cons.mp hx with rfl | hx
        · exact ⟨ha, hitem, fun hname => hzero (hiff.mpr hname)⟩
        · exact hnodes x hx

/-- An entry found is an entry of the list. -/
theorem findChild_listNode (hlen : objName.length = 32)
    (h : findChild s objName fuel (s.objects d).headerList = .ok t) (ht : t ≠ 0) :
    ListNode s d t := by
  obtain ⟨⟨nodes, hchain, hnodes⟩, -⟩ := findChild_spec hlen h
  exact ⟨ht, nodes, hchain, fun x hx => (hnodes x hx).1⟩

/-- The search writes nothing, and what it reads is there unless an item is null. -/
theorem findChild_error (hlen : objName.length = 32) {e : Fault}
    (h : findChild s objName fuel a = .error e) : e = .stuck ∨ e = .null := by
  induction fuel generalizing a with
  | zero =>
    rw [findChild] at h
    split_ifs at h
    exact .inl (Except.error.inj h).symm
  | succ fuel ih =>
    rw [findChild] at h
    split_ifs at h with ha hitem
    · exact .inr (Except.error.inj h).symm
    · obtain ⟨v, hv, -⟩ := strncmp_childName (s := s) hlen (s.lists a).item
      simp only [hv, bind, Except.bind] at h
      split_ifs at h
      exact ih h

theorem findChild_ne_overflow (hlen : objName.length = 32) :
    findChild s objName fuel a ≠ .error .overflow := by
  intro h
  rcases findChild_error hlen h with heq | heq
  · cases heq
  · cases heq

/-- **Search finds**: behind a chain of entries with other names, with a round for each. -/
theorem findChild_of_chain (hlen : objName.length = 32) {nodes : List ℕ}
    (hchain : Chain s.nextEntry a nodes t)
    (hnodes : ∀ x ∈ nodes, x ≠ 0 ∧ (s.lists x).item ≠ 0 ∧
      childName s (s.lists x).item ≠ cString objName)
    (ht : t ≠ 0) (hitem : (s.lists t).item ≠ 0)
    (hname : childName s (s.lists t).item = cString objName) (hfuel : nodes.length < fuel) :
    findChild s objName fuel a = .ok t := by
  induction nodes generalizing a fuel with
  | nil =>
    obtain rfl := hchain
    cases fuel with
    | zero => exact absurd hfuel (Nat.not_lt_zero _)
    | succ fuel =>
      obtain ⟨v, hv, hiff⟩ := strncmp_childName (s := s) hlen (s.lists a).item
      rw [findChild, if_neg ht, if_neg hitem]
      simp only [hv, bind, Except.bind, if_pos (hiff.mpr hname)]
  | cons x nodes ih =>
    obtain ⟨rfl, hrest⟩ := hchain
    cases fuel with
    | zero => exact absurd hfuel (Nat.not_lt_zero _)
    | succ fuel =>
      obtain ⟨ha, haitem, haname⟩ := hnodes a (List.mem_cons_self ..)
      obtain ⟨v, hv, hiff⟩ := strncmp_childName (s := s) hlen (s.lists a).item
      rw [findChild, if_neg ha, if_neg haitem]
      simp only [hv, bind, Except.bind, if_neg fun hzero => haname (hiff.mp hzero)]
      exact ih hrest (fun y hy => hnodes y (List.mem_cons_of_mem _ hy))
        (Nat.lt_of_succ_lt_succ hfuel)

/-- Over a list without the name the search comes to the null pointer. -/
theorem findChild_end (hlen : objName.length = 32) {nodes : List ℕ}
    (hchain : Chain s.nextEntry a nodes 0)
    (hnodes : ∀ x ∈ nodes, x ≠ 0 ∧ (s.lists x).item ≠ 0 ∧
      childName s (s.lists x).item ≠ cString objName)
    (hfuel : nodes.length ≤ fuel) : findChild s objName fuel a = .ok 0 := by
  induction nodes generalizing a fuel with
  | nil =>
    obtain rfl := hchain
    cases fuel with
    | zero => rfl
    | succ fuel => rfl
  | cons x nodes ih =>
    obtain ⟨rfl, hrest⟩ := hchain
    cases fuel with
    | zero => exact absurd hfuel (Nat.not_succ_le_zero _)
    | succ fuel =>
      obtain ⟨ha, haitem, haname⟩ := hnodes a (List.mem_cons_self ..)
      obtain ⟨v, hv, hiff⟩ := strncmp_childName (s := s) hlen (s.lists a).item
      rw [findChild, if_neg ha, if_neg haitem]
      simp only [hv, bind, Except.bind, if_neg fun hzero => haname (hiff.mp hzero)]
      exact ih hrest (fun y hy => hnodes y (List.mem_cons_of_mem _ hy)) (Nat.le_of_succ_le_succ hfuel)

/-- Over a chain of entries that ends at one with the name, the search finds an entry. -/
theorem findChild_finds (hlen : objName.length = 32) {nodes : List ℕ}
    (hchain : Chain s.nextEntry a nodes t)
    (hnodes : ∀ x ∈ nodes, x ≠ 0 ∧ (s.lists x).item ≠ 0)
    (ht : t ≠ 0) (hitem : (s.lists t).item ≠ 0)
    (hname : childName s (s.lists t).item = cString objName) (hfuel : nodes.length < fuel) :
    ∃ t', findChild s objName fuel a = .ok t' ∧ t' ≠ 0 := by
  induction nodes generalizing a fuel with
  | nil =>
    have hempty : ∀ x ∈ ([] : List ℕ), x ≠ 0 ∧ (s.lists x).item ≠ 0 ∧
        childName s (s.lists x).item ≠ cString objName := fun x hx => absurd hx List.not_mem_nil
    exact ⟨t, findChild_of_chain hlen hchain hempty ht hitem hname hfuel, ht⟩
  | cons x nodes ih =>
    obtain ⟨rfl, hrest⟩ := hchain
    cases fuel with
    | zero => exact absurd hfuel (Nat.not_lt_zero _)
    | succ fuel =>
      obtain ⟨ha, haitem⟩ := hnodes a (List.mem_cons_self ..)
      obtain ⟨v, hv, -⟩ := strncmp_childName (s := s) hlen (s.lists a).item
      rw [findChild, if_neg ha, if_neg haitem]
      simp only [hv, bind, Except.bind]
      split_ifs with hzero
      · exact ⟨a, rfl, ha⟩
      · exact ih hrest (fun y hy => hnodes y (List.mem_cons_of_mem _ hy))
          (Nat.lt_of_succ_lt_succ hfuel)

/-- **Search and agreement**: the search reads the entries of the list and the headers of its
items. -/
theorem findChild_congr (hlists : ∀ t, ListNode s d t → s'.lists t = s.lists t)
    (hobjects : ∀ t, ListNode s d t →
      (s'.objects (s.lists t).item).header = (s.objects (s.lists t).item).header)
    (ha : a ≠ 0 → ListNode s d a) : findChild s' objName fuel a = findChild s objName fuel a := by
  induction fuel generalizing a with
  | zero => rfl
  | succ fuel ih =>
    rw [findChild, findChild]
    by_cases hzero : a = 0
    · rw [if_pos hzero, if_pos hzero]
    have hnode := ha hzero
    have hrest := ih fun hnext => hnode.next hnext
    rw [if_neg hzero, if_neg hzero, hlists a hnode, hobjects a hnode, hrest]

end Cutesugar.Kernel
