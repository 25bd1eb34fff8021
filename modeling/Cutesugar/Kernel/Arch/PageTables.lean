import Cutesugar.Kernel.Arch.Mmu
import Cutesugar.Lib.Bits
import Cutesugar.Lib.Radix

/-!
# Page tables as trees

Nothing in a page table entry says how deep the table it names lies, so everything about
`KernelMapPage` rests on tables not being shared between places. `Forest` says this for a set
of roots at once: tables reached by different paths are apart, and tables reached by the same
path from two roots are the same table or apart. The second case is what copying a root leaves
behind.

## Structure

- reading and writing entries of tables that are apart;
- `child`, `tableAt`: the tables as a store of linked tables;
- `Forest`: the invariant, and `lookup`: what it makes of `KernelGetPhysicalAddress`;
- `Grows`: what one level of the descent of a mapping does.
-/

namespace Cutesugar.Kernel.Mmu

open Lib Lib.Memory

/-! ## Entries -/

theorem present_iff {e : ℕ} : present e = true ↔ e % 2 = 1 := by
  rw [present, Nat.and_one_is_mod, bne_iff_ne, Nat.mod_two_ne_zero]

theorem present_zero : present 0 = false := rfl

theorem pml4Index_lt (v : ℕ) : pml4Index v < 512 := Nat.and_lt_two_pow (n := 9) _ (by decide)
theorem hpdIndex_lt (v : ℕ) : hpdIndex v < 512 := Nat.and_lt_two_pow (n := 9) _ (by decide)
theorem lpdIndex_lt (v : ℕ) : lpdIndex v < 512 := Nat.and_lt_two_pow (n := 9) _ (by decide)
theorem ptIndex_lt (v : ℕ) : ptIndex v < 512 := Nat.and_lt_two_pow (n := 9) _ (by decide)

/-- The flags an entry is written with. -/
structure Flags (value : ℕ) : Prop where
  lt : value < 512
  odd : value % 2 = 1

/-- Flags joined to an address that is a multiple of 512 are added to it. -/
theorem lor_flags {f value : ℕ} (hf : f % 512 = 0) (hv : value < 512) :
    f ||| value = f + value := by
  have hfield : f = f / 512 * 2 ^ 9 := by omega
  rw [hfield]
  exact mul_two_pow_lor _ hv

theorem present_lor {f value : ℕ} (hf : f % 512 = 0) (hv : Flags value) :
    present (f ||| value) = true := by
  rw [present_iff, lor_flags hf hv.lt]
  have := hv.odd
  omega

/-- The table bits of an entry are the frame it was written with. -/
theorem land_tableMask {f value : ℕ} (hf : f % 512 = 0) (hlt : f < 2 ^ 63) (hv : value < 512) :
    (f ||| value) &&& tableMask = f := by
  have hmask : tableMask = 2 ^ 63 - 2 ^ 9 := rfl
  rw [hmask, land_field_mask (by decide), lor_flags hf hv]
  omega

/-- The page bits of an entry are the page it was written with. -/
theorem land_pageMask {f value : ℕ} (hf : f % 4096 = 0) (hlt : f < 2 ^ 63) (hv : value < 512) :
    (f ||| value) &&& pageMask = f := by
  have hmask : pageMask = 2 ^ 63 - 2 ^ 12 := rfl
  rw [hmask, land_field_mask (by decide), lor_flags (by omega) hv]
  omega

theorem land_pageMask_mod (e : ℕ) : (e &&& pageMask) % 4096 = 0 := by
  have hmask : pageMask = 2 ^ 63 - 2 ^ 12 := rfl
  rw [hmask, land_field_mask (by decide)]
  omega

section Frames

variable {m : Memory} {t u i j v : ℕ}

theorem entry_setEntry_same (hv : v < 2 ^ 64) : entry (setEntry m t i v) t i = v :=
  load64_store64_same_of_lt hv

/-- Writing an entry leaves the other entries of the table and all tables apart from it alone. -/
theorem entry_setEntry_of_ne (hi : i < 512) (hj : j < 512) (ht : u = t ∨ Apart u 4096 t 4096)
    (hne : ¬ (u = t ∧ j = i)) : entry (setEntry m t i v) u j = entry m u j := by
  refine load64_store64_of_apart ?_
  unfold Apart at *
  omega

theorem entry_memset_of_apart (hj : j < 512) (h : Apart u 4096 t 4096) :
    entry (m.memset t 0 4096) u j = entry m u j := by
  refine load64_memset_of_apart ?_
  unfold Apart at *
  omega

theorem entry_memset (hj : j < 512) : entry (m.memset t 0 4096) t j = 0 :=
  load64_memset_zero (by omega) (by omega)

end Frames

/-! ## The store of tables -/

variable (P : Platform)

/-- The table an index of a table leads to. -/
def child (m : Memory) (table index : ℕ) : Option ℕ :=
  if present (entry m table index) then some (joinTable P (entry m table index)) else none

/-- The table at the end of a path of indices. -/
def tableAt (m : Memory) (root : ℕ) (path : List ℕ) : Option ℕ := descend (child P m) root path

/-- The path to the last table of the descent for a virtual address. -/
def pathOf (v : ℕ) : List ℕ := [pml4Index v, hpdIndex v, lpdIndex v]

/-- The page an entry of a last table names. -/
def leaf (m : Memory) (table index : ℕ) : Option ℕ :=
  if present (entry m table index) then some (entry m table index &&& pageMask) else none

/-- The translation of a virtual address. -/
def lookup (m : Memory) (root v : ℕ) : Option ℕ :=
  (tableAt P m root (pathOf v)).bind (leaf m · (ptIndex v))

variable {P}

theorem child_congr {m m' : Memory} {t i : ℕ} (h : entry m' t i = entry m t i) :
    child P m' t i = child P m t i := by
  simp [child, h]

theorem leaf_congr {m m' : Memory} {t i : ℕ} (h : entry m' t i = entry m t i) :
    leaf m' t i = leaf m t i := by
  simp [leaf, h]

theorem child_of_present {m : Memory} {t i : ℕ} (h : present (entry m t i) = true) :
    child P m t i = some (joinTable P (entry m t i)) := by
  simp [child, h]

theorem child_of_not_present {m : Memory} {t i : ℕ} (h : present (entry m t i) = false) :
    child P m t i = none := by
  simp [child, h]

theorem leaf_of_not_present {m : Memory} {t i : ℕ} (h : present (entry m t i) = false) :
    leaf m t i = none := by
  simp [leaf, h]

/-! ## The pool of frames -/

/-- From its stack position up to `count` the pool holds distinct aligned frames that share no
bit with the HHDM offset. -/
structure Pool (P : Platform) (count : ℕ) (s : State) : Prop where
  aligned : ∀ k, s.stackPosition ≤ k → k < count → s.memList k % 4096 = 0
  below : ∀ k, s.stackPosition ≤ k → k < count → s.memList k < 2 ^ 63
  disjoint : ∀ k, s.stackPosition ≤ k → k < count → s.memList k &&& P.hhdmOffset = 0
  distinct : ∀ k l, s.stackPosition ≤ k → k < count → s.stackPosition ≤ l → l < count →
    s.memList k = s.memList l → k = l

/-- The address the `k`-th frame of the pool is accessed at. -/
def frameAt (P : Platform) (s : State) (k : ℕ) : ℕ := s.memList k + P.hhdmOffset

theorem Pool.apart {count : ℕ} {s : State} (h : Pool P count s) {k l : ℕ}
    (hk : s.stackPosition ≤ k) (hk' : k < count) (hl : s.stackPosition ≤ l) (hl' : l < count)
    (hne : k ≠ l) : Apart (frameAt P s k) 4096 (frameAt P s l) 4096 := by
  have hdist : s.memList k ≠ s.memList l := fun heq => hne (h.distinct k l hk hk' hl hl' heq)
  have := h.aligned k hk hk'
  have := h.aligned l hl hl'
  unfold Apart frameAt
  omega

/-- A pool that moved on is still a pool. -/
theorem Pool.mono {count : ℕ} {s s' : State} (h : Pool P count s) (hlist : s'.memList = s.memList)
    (hpos : s.stackPosition ≤ s'.stackPosition) : Pool P count s' where
  aligned k hk := hlist ▸ h.aligned k (hpos.trans hk)
  below k hk := hlist ▸ h.below k (hpos.trans hk)
  disjoint k hk := hlist ▸ h.disjoint k (hpos.trans hk)
  distinct k l hk hk' hl := hlist ▸ h.distinct k l (hpos.trans hk) hk' (hpos.trans hl)

/-- A frame of the lower half shares no bit with an offset that begins the upper half. -/
theorem land_hhdm {n : ℕ} (hn : n < 2 ^ 47) : n &&& 0xFFFF800000000000 = 0 := by
  have hmask : (0xFFFF800000000000 : ℕ) = 2 ^ 64 - 2 ^ 47 := by decide
  rw [hmask, land_field_mask (by decide), Nat.mod_eq_of_lt (by omega), Nat.div_eq_of_lt hn, Nat.zero_mul]

/-- The table a fresh entry names is the frame at the HHDM offset. -/
theorem joinTable_flags {f value : ℕ} (hf : f % 512 = 0) (hlt : f < 2 ^ 63) (hv : value < 512)
    (hbits : f &&& P.hhdmOffset = 0) : joinTable P (f ||| value) = f + P.hhdmOffset := by
  rw [joinTable, land_tableMask hf hlt hv, lor_eq_add_of_land_eq_zero hbits]

/-- Where the table bits share no bit with the offset, reader and writers name one table. -/
theorem addTable_eq_joinTable {e : ℕ} (h : (e &&& tableMask) &&& P.hhdmOffset = 0) :
    addTable P e = joinTable P e := by
  have hlt : (e &&& tableMask) ||| P.hhdmOffset < 2 ^ 64 :=
    Nat.or_lt_two_pow (Nat.and_lt_two_pow _ (by decide)) P.hhdmOffset_lt
  rw [lor_eq_add_of_land_eq_zero h] at hlt
  rw [addTable, joinTable, lor_eq_add_of_land_eq_zero h, Nat.mod_eq_of_lt hlt]

/-! ## Forests of tables -/

/-- Some roots and, for each of them, the slots of the root that are looked at. -/
structure View where
  roots : Set ℕ
  slots : ℕ → Set ℕ

/-- The path starts from a root of the view and in one of its slots. -/
def View.Path (V : View) (root : ℕ) (p : List ℕ) : Prop :=
  root ∈ V.roots ∧ (∀ i ∈ p, i < 512) ∧ ∀ i ∈ p.head?, i ∈ V.slots root

theorem View.Path.of_append {V : View} {r : ℕ} {p q : List ℕ} (h : V.Path r (p ++ q)) :
    V.Path r p := by
  obtain ⟨hroot, hlt, hslot⟩ := h
  refine ⟨hroot, fun i hi => hlt i (List.mem_append_left q hi), fun i hi => hslot i ?_⟩
  cases p with
  | nil => simp at hi
  | cons j p => simpa using hi

theorem View.Path.initial {V : View} {r : ℕ} {p q : List ℕ} (h : V.Path r q) (hp : p <+: q) :
    V.Path r p := by
  obtain ⟨rest, rfl⟩ := hp
  exact h.of_append

theorem View.Path.last_lt {V : View} {r i : ℕ} {p : List ℕ} (h : V.Path r (p ++ [i])) : i < 512 :=
  h.2.1 i (by simp)

theorem View.path_pathOf {V : View} {r v : ℕ} (h : V.Path r [pml4Index v]) :
    V.Path r (pathOf v) := by
  refine ⟨h.1, ?_, h.2.2⟩
  simp only [pathOf, List.mem_cons, List.not_mem_nil, or_false, forall_eq_or_imp, forall_eq]
  exact ⟨pml4Index_lt v, hpdIndex_lt v, lpdIndex_lt v⟩

/-- **Forest**: the tables of the view are not shared between places, are apart from the frames
left in the pool, and sit where reader and writers agree. -/
structure Forest (P : Platform) (V : View) (count : ℕ) (s : State) : Prop where
  pool : Pool P count s
  noAlias : ∀ {r r' p q t u}, V.Path r p → p.length ≤ 3 → tableAt P s.mem r p = some t →
    V.Path r' q → q.length ≤ 3 → tableAt P s.mem r' q = some u →
    (p = q ∧ t = u) ∨ Apart t 4096 u 4096
  fresh : ∀ {r p t}, V.Path r p → p.length ≤ 3 → tableAt P s.mem r p = some t →
    ∀ k, s.stackPosition ≤ k → k < count → Apart t 4096 (frameAt P s k) 4096
  joined : ∀ {r p t j}, V.Path r (p ++ [j]) → p.length ≤ 2 → tableAt P s.mem r p = some t →
    present (entry s.mem t j) = true → (entry s.mem t j &&& tableMask) &&& P.hhdmOffset = 0

theorem not_apart_self (t : ℕ) : ¬ Apart t 4096 t 4096 := by
  unfold Apart
  omega

/-- One table is at one path. -/
theorem Forest.path_unique {V : View} {count : ℕ} {s : State} (h : Forest P V count s)
    {r r' t : ℕ} {p q : List ℕ} (hp : V.Path r p) (hlp : p.length ≤ 3)
    (htp : tableAt P s.mem r p = some t) (hq : V.Path r' q) (hlq : q.length ≤ 3)
    (htq : tableAt P s.mem r' q = some t) : p = q := by
  rcases h.noAlias hp hlp htp hq hlq htq with ⟨heq, -⟩ | hap
  · exact heq
  · exact absurd hap (not_apart_self t)

/-- What a step through slot `i` of root `a` leaves alone: all tables but those of `a`, and of
these all but the root and the tables below slot `i`. -/
def Frame (P : Platform) (V : View) (a i : ℕ) (s s' : State) : Prop :=
  ∀ {r q u j}, V.Path r q → q.length ≤ 3 → tableAt P s.mem r q = some u → j < 512 →
    ¬ (tableAt P s.mem a q = some u ∧ ∀ k ∈ q.head?, k = i) →
    entry s'.mem u j = entry s.mem u j

/-- `s'` has the translations of `s`, and its tables and possibly more, all new ones below slot
`i` of root `a`. -/
structure Grows (P : Platform) (V : View) (count a i : ℕ) (s s' : State) : Prop where
  forest : Forest P V count s'
  list : s'.memList = s.memList
  pos : s.stackPosition ≤ s'.stackPosition
  keep : ∀ {r q u}, V.Path r q → q.length ≤ 3 → tableAt P s.mem r q = some u →
    tableAt P s'.mem r q = some u
  new : ∀ {r q u}, V.Path r q → q.length ≤ 3 → tableAt P s'.mem r q = some u →
    tableAt P s.mem r q = some u ∨
      ∀ r' q', V.Path r' q' → q'.length ≤ 3 → tableAt P s.mem r' q' ≠ some u
  lookup : ∀ {r v}, V.Path r [pml4Index v] → lookup P s'.mem r v = lookup P s.mem r v
  slots : ∀ {r j}, V.Path r [j] → (r = a → j = i → present (entry s.mem r j) = true) →
    entry s'.mem r j = entry s.mem r j
  frame : Frame P V a i s s'

theorem Grows.refl {V : View} {count : ℕ} {s : State} (h : Forest P V count s) (a i : ℕ) :
    Grows P V count a i s s where
  forest := h
  list := rfl
  pos := le_rfl
  keep _ _ ht := ht
  new _ _ ht := .inl ht
  lookup _ := rfl
  slots _ _ := rfl
  frame _ _ _ _ _ := rfl

theorem Grows.trans {V : View} {count a i : ℕ} {s s' s'' : State} (ha : V.Path a [i])
    (h : Grows P V count a i s s') (h' : Grows P V count a i s' s'') :
    Grows P V count a i s s'' := by
  refine { forest := h'.forest, list := h'.list.trans h.list, pos := h.pos.trans h'.pos,
           keep := fun hr hq ht => h'.keep hr hq (h.keep hr hq ht), new := ?_,
           lookup := fun hr => (h'.lookup hr).trans (h.lookup hr), slots := ?_, frame := ?_ }
  · intro r q u hr hq ht
    rcases h'.new hr hq ht with ht | hnew
    · exact h.new hr hq ht
    · exact .inr fun r' q' hr' hq' ht' => hnew r' q' hr' hq' (h.keep hr' hq' ht')
  · intro r j hr hpres
    have hfirst := h.slots hr hpres
    rw [h'.slots hr fun hra hji => hfirst ▸ hpres hra hji, hfirst]
  · intro r q u j hr hq ht hj hnot
    rw [h'.frame hr hq (h.keep hr hq ht) hj ?_, h.frame hr hq ht hj hnot]
    rintro ⟨hau, hhead⟩
    have hpath : V.Path a q := by
      refine ⟨ha.1, hr.2.1, fun k hk => ?_⟩
      obtain rfl := hhead k hk
      exact ha.2.2 k (by simp)
    rcases h.new hpath hq hau with hau | hnew
    · exact hnot ⟨hau, hhead⟩
    · exact hnew r q hr hq ht

/-! ## A new table -/

section Link

variable {V : View} {count : ℕ} {s s' : State} {a t i F : ℕ} {p : List ℕ}

/-- `s'` has the next frame of the pool as a new table without entries below index `i` of
table `t`. -/
structure Link (P : Platform) (s s' : State) (t i : ℕ) : Prop where
  list : s'.memList = s.memList
  pos : s'.stackPosition = s.stackPosition + 1
  absent : present (entry s.mem t i) = false
  edge : present (entry s'.mem t i) = true
  names : entry s'.mem t i &&& tableMask = s.memList s.stackPosition
  empty : ∀ j < 512, entry s'.mem (frameAt P s s.stackPosition) j = 0
  frame : ∀ u j, j < 512 → Apart u 4096 (frameAt P s s.stackPosition) 4096 →
    (u = t ∨ Apart u 4096 t 4096) → ¬ (u = t ∧ j = i) → entry s'.mem u j = entry s.mem u j

theorem Link.child (hl : Link P s s' t i) (hpool : Pool P count s)
    (hroom : s.stackPosition < count) :
    child P s'.mem t i = some (frameAt P s s.stackPosition) := by
  rw [child_of_present hl.edge, joinTable, hl.names,
    lor_eq_add_of_land_eq_zero (hpool.disjoint _ le_rfl hroom), frameAt]

/-- The entries of the tables of the view, the new edge apart, stay. -/
theorem Link.entry_eq (hl : Link P s s' t i) (h : Forest P V count s)
    (hroom : s.stackPosition < count) (hp : V.Path a (p ++ [i])) (hlen : p.length ≤ 2)
    (ht : tableAt P s.mem a p = some t) {r u j : ℕ} {q : List ℕ} (hq : V.Path r q)
    (hlq : q.length ≤ 3) (hu : tableAt P s.mem r q = some u) (hj : j < 512)
    (hne : ¬ (u = t ∧ j = i)) : entry s'.mem u j = entry s.mem u j := by
  refine hl.frame u j hj (h.fresh hq hlq hu _ le_rfl hroom) ?_ hne
  exact (h.noAlias hq hlq hu hp.of_append (by omega) ht).imp And.right id

/-- A table of the new state was there before, or is the new one at the path of the new edge. -/
theorem Link.tableAt_cases (hl : Link P s s' t i) (h : Forest P V count s)
    (hroom : s.stackPosition < count) (hp : V.Path a (p ++ [i])) (hlen : p.length ≤ 2)
    (ht : tableAt P s.mem a p = some t) {r : ℕ} {q : List ℕ} (hq : V.Path r q)
    (hlq : q.length ≤ 3) :
    tableAt P s'.mem r q = tableAt P s.mem r q ∨
      (tableAt P s.mem r q = none ∧ ∀ u, tableAt P s'.mem r q = some u →
        q = p ++ [i] ∧ u = frameAt P s s.stackPosition) := by
  -- only the new edge makes a difference, and a table is at the end of one path
  have hframe : ∀ p' j, p' ++ [j] <+: q → ∀ u, descend (Mmu.child P s.mem) r p' = some u →
      (u = t ∧ j = i) ∨ Mmu.child P s'.mem u j = Mmu.child P s.mem u j := by
    intro p' j hpre u hu
    have hpath := hq.initial hpre
    have hlen' : (p' ++ [j]).length ≤ q.length := hpre.length_le
    rw [List.length_append, List.length_singleton] at hlen'
    by_cases hedge : u = t ∧ j = i
    · exact .inl hedge
    · exact .inr (child_congr (hl.entry_eq h hroom hp hlen ht hpath.of_append (by omega) hu
        hpath.last_lt hedge))
  rcases descend_or_passes hframe with hsame | ⟨p', rest, rfl, hold, hnew⟩
  · exact .inl hsame
  · have hlp' : p'.length ≤ 3 := by rw [List.length_append] at hlq; omega
    obtain rfl : p' = p := h.path_unique hq.of_append hlp' hold hp.of_append (by omega) ht
    refine .inr ⟨descend_of_absent hold (child_of_not_present hl.absent), fun u hu => ?_⟩
    -- the new table is empty, so no path leads through it
    have hleaf : ∀ j ∈ rest.head?, Mmu.child P s'.mem (frameAt P s s.stackPosition) j = none := by
      intro j hj
      have hj512 : j < 512 :=
        hq.2.1 j (List.mem_append_right p' (List.mem_cons_of_mem i (List.mem_of_mem_head? hj)))
      refine child_of_not_present ?_
      rw [hl.empty j hj512]
      exact present_zero
    rw [tableAt, descend_of_leaf hnew (hl.child h.pool hroom) hleaf] at hu
    split_ifs at hu with hrest
    · exact ⟨by rw [hrest], (Option.some.inj hu).symm⟩

/-- **Linking a new table** keeps the forest and all translations. -/
theorem Link.grows (hl : Link P s s' t i) (h : Forest P V count s)
    (hroom : s.stackPosition < count) (hp : V.Path a (p ++ [i])) (hlen : p.length ≤ 2)
    (ht : tableAt P s.mem a p = some t) {i₀ : ℕ} (hi₀ : i₀ ∈ (p ++ [i]).head?) :
    Grows P V count a i₀ s s' := by
  have hpos : s.stackPosition ≤ s'.stackPosition := by rw [hl.pos]; omega
  have hcases {r : ℕ} {q : List ℕ} (hq : V.Path r q) (hlq : q.length ≤ 3) :=
    hl.tableAt_cases h hroom hp hlen ht hq hlq
  have hentry {r u j : ℕ} {q : List ℕ} (hq : V.Path r q) (hlq : q.length ≤ 3)
      (hu : tableAt P s.mem r q = some u) (hj : j < 512) (hne : ¬ (u = t ∧ j = i)) :=
    hl.entry_eq h hroom hp hlen ht hq hlq hu hj hne
  have hframeAt : ∀ k, frameAt P s' k = frameAt P s k := fun k => by rw [frameAt, hl.list, frameAt]
  -- every table of the new state is an old one or the new one
  have hold_or_new {r u : ℕ} {q : List ℕ} (hq : V.Path r q) (hlq : q.length ≤ 3)
      (hu : tableAt P s'.mem r q = some u) : tableAt P s.mem r q = some u ∨
        (q = p ++ [i] ∧ u = frameAt P s s.stackPosition) := by
    rcases hcases hq hlq with hsame | ⟨-, hnew⟩
    · exact .inl (hsame ▸ hu)
    · exact .inr (hnew u hu)
  refine { forest := ⟨h.pool.mono hl.list hpos, ?_, ?_, ?_⟩, list := hl.list, pos := hpos,
           keep := ?_, new := ?_, lookup := ?_, slots := ?_, frame := ?_ }
  · intro r r' q q' u u' hq hlq hu hq' hlq' hu'
    rcases hold_or_new hq hlq hu with hu | ⟨rfl, rfl⟩
    · rcases hold_or_new hq' hlq' hu' with hu' | ⟨rfl, rfl⟩
      · exact h.noAlias hq hlq hu hq' hlq' hu'
      · exact .inr (h.fresh hq hlq hu _ le_rfl hroom)
    · rcases hold_or_new hq' hlq' hu' with hu' | ⟨rfl, rfl⟩
      · exact .inr (h.fresh hq' hlq' hu' _ le_rfl hroom).symm
      · exact .inl ⟨rfl, rfl⟩
  · intro r q u hq hlq hu k hk hk'
    rw [hframeAt]
    rw [hl.pos] at hk
    rcases hold_or_new hq hlq hu with hu | ⟨-, rfl⟩
    · exact h.fresh hq hlq hu k (by omega) hk'
    · exact h.pool.apart le_rfl hroom (by omega) hk' (by omega)
  · intro r q u j hq hlq hu hpres
    rcases hold_or_new hq.of_append (by omega) hu with hu | ⟨-, rfl⟩
    · by_cases hedge : u = t ∧ j = i
      · obtain ⟨rfl, rfl⟩ := hedge
        rw [hl.names]
        exact h.pool.disjoint _ le_rfl hroom
      · rw [hentry hq.of_append (by omega) hu hq.last_lt hedge] at hpres ⊢
        exact h.joined hq hlq hu hpres
    · rw [hl.empty j hq.last_lt, present_zero] at hpres
      exact absurd hpres (by decide)
  · intro r q u hq hlq hu
    rcases hcases hq hlq with hsame | ⟨hnone, -⟩
    · rw [hsame, hu]
    · simp [hnone] at hu
  · intro r q u hq hlq hu
    rcases hold_or_new hq hlq hu with hu | ⟨-, rfl⟩
    · exact .inl hu
    · refine .inr fun r' q' hq' hlq' hu' => ?_
      exact not_apart_self _ (h.fresh hq' hlq' hu' _ le_rfl hroom)
  · intro r v hv
    have hq := View.path_pathOf hv
    have hlq : (pathOf v).length ≤ 3 := le_rfl
    rcases hcases hq hlq with hsame | ⟨hnone, hnew⟩
    · rw [Mmu.lookup, Mmu.lookup, hsame]
      cases hu : tableAt P s.mem r (pathOf v) with
      | none => simp only [Option.bind_none]
      | some u =>
        refine leaf_congr (hentry hq hlq hu (ptIndex_lt v) ?_)
        -- a last table lies deeper than the table of the new edge
        rintro ⟨rfl, -⟩
        have heq := h.path_unique hq hlq hu hp.of_append (by omega) ht
        have : (pathOf v).length = p.length := congrArg _ heq
        simp only [pathOf, List.length_cons, List.length_nil] at this
        omega
    · rw [Mmu.lookup, Mmu.lookup, hnone]
      cases hu : tableAt P s'.mem r (pathOf v) with
      | none => simp only [Option.bind_none]
      | some u =>
        obtain ⟨-, rfl⟩ := hnew u hu
        refine leaf_of_not_present ?_
        rw [hl.empty _ (ptIndex_lt v)]
        exact present_zero
  · intro r j hr hpres
    refine hentry (q := []) (hr.initial (List.nil_prefix)) (by simp) rfl (hr.2.1 j (by simp)) ?_
    rintro ⟨rfl, rfl⟩
    -- the root itself is the table of the new edge, so the slot is the edge
    obtain rfl := h.path_unique (hr.initial List.nil_prefix) (by simp) rfl hp.of_append
      (by omega) ht
    have hra : a = r := Option.some.inj ht
    have := hpres hra.symm (by simpa using hi₀)
    rw [hl.absent] at this
    exact absurd this (by decide)
  · intro r q u j hq hlq hu hj hnot
    refine hentry hq hlq hu hj ?_
    rintro ⟨rfl, rfl⟩
    obtain rfl := h.path_unique hq hlq hu hp.of_append (by omega) ht
    refine hnot ⟨ht, fun k hk => ?_⟩
    rw [List.head?_append_of_ne_nil q (by rintro rfl; simp at hk)] at hi₀
    exact Option.mem_unique hk hi₀

end Link

end Cutesugar.Kernel.Mmu
