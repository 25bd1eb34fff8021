import Cutesugar.Kernel.Arch.PageTables

/-!
# What the paging functions do to a forest

One lemma for each function says everything a call can do, in the terms of `Forest`:

- `nextTable_spec`: one level of a mapping grows the forest;
- `mapValue_spec`: a mapping grows the forest and then writes at most one entry of a last table;
- `kernelUnmapPage_spec`: an unmapping clears one entry of a last table, or does nothing;
- `SetLeaf`: what writing an entry of a last table changes;
- `kernelGetPhysicalAddress_of_lookup`: the reader computes `lookup`.
-/

namespace Cutesugar.Kernel.Mmu

open Lib Lib.Memory

variable {P : Platform} {V : View} {count : ℕ} {s s' : State} {a t i v : ℕ} {p : List ℕ}

/-! ## One level of the descent -/

theorem nextTable_of_present {value : ℕ} (h : present (entry s.mem t i) = true) :
    nextTable P s t i value = (joinTable P (entry s.mem t i), s) := by
  simp [nextTable, h]

theorem le_nextTable_stackPosition (value : ℕ) :
    s.stackPosition ≤ (nextTable P s t i value).2.stackPosition := by
  simp only [nextTable, kernelAllocateFrame]
  split_ifs
  · exact le_rfl
  · exact Nat.le_succ _

/-- Where the entry is absent, the next frame of the pool is linked. -/
theorem nextTable_of_absent {value : ℕ} (h : Forest P V count s) (hp : V.Path a (p ++ [i]))
    (hlen : p.length ≤ 2) (ht : tableAt P s.mem a p = some t) (hval : Flags value)
    (habsent : present (entry s.mem t i) = false) (hroom : s.stackPosition < count) :
    (nextTable P s t i value).1 = frameAt P s s.stackPosition ∧
      Link P s (nextTable P s t i value).2 t i := by
  have haligned := h.pool.aligned _ le_rfl hroom
  have hbelow := h.pool.below _ le_rfl hroom
  have hbits := h.pool.disjoint _ le_rfl hroom
  have hapart := h.fresh hp.of_append (by omega) ht _ le_rfl hroom
  have haccess : s.memList s.stackPosition ||| P.hhdmOffset = frameAt P s s.stackPosition :=
    lor_eq_add_of_land_eq_zero hbits
  have hjoin : joinTable P (s.memList s.stackPosition) = frameAt P s s.stackPosition := by
    have := joinTable_flags (P := P) (by omega) hbelow (show 0 < 512 by decide) hbits
    rwa [Nat.or_zero] at this
  have hword : s.memList s.stackPosition ||| value < 2 ^ 64 := by
    rw [lor_flags (by omega) hval.lt]
    have := hval.lt
    omega
  -- the frame is cleared at its address in the HHDM and linked by its number
  simp only [nextTable, habsent, kernelAllocateFrame, haccess, hjoin]
  refine ⟨rfl, ⟨rfl, rfl, habsent, ?_, ?_, ?_, ?_⟩⟩
  · show present (entry (setEntry _ _ _ _) t i) = true
    rw [entry_setEntry_same hword]
    exact present_lor (by omega) hval
  · show entry (setEntry _ _ _ _) t i &&& tableMask = _
    rw [entry_setEntry_same hword]
    exact land_tableMask (by omega) hbelow hval.lt
  · intro j hj
    show entry (setEntry _ _ _ _) _ j = 0
    rw [entry_setEntry_of_ne hp.last_lt hj (.inr hapart.symm) ?_, entry_memset hj]
    rintro ⟨heq, -⟩
    exact not_apart_self t (heq ▸ hapart)
  · intro u j hj hu hut hne
    show entry (setEntry _ _ _ _) u j = _
    rw [entry_setEntry_of_ne hp.last_lt hj hut hne, entry_memset_of_apart hj hu]

/-- **One level**: the forest grows and the table returned is the one at the longer path. -/
theorem nextTable_spec {value k : ℕ} (h : Forest P V count s) (hp : V.Path a (p ++ [i]))
    (hlen : p.length ≤ 2) (ht : tableAt P s.mem a p = some t) (hval : Flags value)
    (hk : k ∈ (p ++ [i]).head?)
    (hroom : (nextTable P s t i value).2.stackPosition ≤ count) :
    Grows P V count a k s (nextTable P s t i value).2 ∧
      tableAt P (nextTable P s t i value).2.mem a (p ++ [i]) =
        some (nextTable P s t i value).1 := by
  by_cases hpres : present (entry s.mem t i) = true
  · rw [nextTable_of_present hpres]
    refine ⟨Grows.refl h a k, ?_⟩
    unfold tableAt at *
    rw [descend_snoc, ht, Option.bind_some, child_of_present hpres]
  · rw [Bool.not_eq_true] at hpres
    have hlt : s.stackPosition < count := by
      simp only [nextTable, hpres, kernelAllocateFrame] at hroom
      exact hroom
    obtain ⟨hframe, hlink⟩ := nextTable_of_absent h hp hlen ht hval hpres hlt
    have hgrows := hlink.grows h hlt hp hlen ht hk
    refine ⟨hgrows, ?_⟩
    have htable := hgrows.keep hp.of_append (by omega) ht
    unfold tableAt at *
    rw [descend_snoc, htable, Option.bind_some, hlink.child h.pool hlt, hframe]

/-- **One level of a mapping**, with `n` its result: the table was there, or the next frame of the
pool is linked with the flags. -/
structure Level (P : Platform) (V : View) (count a k : ℕ) (s : State) (p : List ℕ)
    (t i value : ℕ) (n : ℕ × State) : Prop where
  forest : Forest P V count s
  path : V.Path a (p ++ [i])
  length : p.length ≤ 2
  source : tableAt P s.mem a p = some t
  grows : Grows P V count a k s n.2
  target : tableAt P n.2.mem a (p ++ [i]) = some n.1
  outcome : (present (entry s.mem t i) = true ∧ n = (joinTable P (entry s.mem t i), s)) ∨
    (s.stackPosition < count ∧ n.1 = frameAt P s s.stackPosition ∧ Link P s n.2 t i ∧
      entry n.2.mem t i = s.memList s.stackPosition ||| value)

theorem nextTable_level {value k : ℕ} (h : Forest P V count s) (hp : V.Path a (p ++ [i]))
    (hlen : p.length ≤ 2) (ht : tableAt P s.mem a p = some t) (hval : Flags value)
    (hk : k ∈ (p ++ [i]).head?) (hroom : (nextTable P s t i value).2.stackPosition ≤ count) :
    Level P V count a k s p t i value (nextTable P s t i value) := by
  obtain ⟨hgrows, htarget⟩ := nextTable_spec h hp hlen ht hval hk hroom
  refine ⟨h, hp, hlen, ht, hgrows, htarget, ?_⟩
  by_cases hpres : present (entry s.mem t i) = true
  · exact .inl ⟨hpres, nextTable_of_present hpres⟩
  · rw [Bool.not_eq_true] at hpres
    have hlt : s.stackPosition < count := by
      simp only [nextTable, hpres, kernelAllocateFrame] at hroom
      exact hroom
    obtain ⟨hframe, hlink⟩ := nextTable_of_absent h hp hlen ht hval hpres hlt
    refine .inr ⟨hlt, hframe, hlink, ?_⟩
    have haligned := h.pool.aligned _ le_rfl hlt
    have hbelow := h.pool.below _ le_rfl hlt
    have hword : s.memList s.stackPosition ||| value < 2 ^ 64 := by
      rw [lor_flags (by omega) hval.lt]
      have := hval.lt
      omega
    simp only [nextTable, hpres, kernelAllocateFrame]
    exact entry_setEntry_same hword

/-! ## Writing an entry of a last table -/

/-- `s'` is `s` with the entry for `v` in the last table of `v` under root `a` set to `e`. -/
structure SetLeaf (P : Platform) (a v e : ℕ) (s s' : State) (pt : ℕ) : Prop where
  table : tableAt P s.mem a (pathOf v) = some pt
  word : e < 2 ^ 64
  eq : s' = { s with mem := setEntry s.mem pt (ptIndex v) e }

section SetLeaf

variable {e pt : ℕ}

/-- Entries of all other tables, and the other entries of the last table, stay. -/
theorem SetLeaf.entry_eq (hset : SetLeaf P a v e s s' pt) (h : Forest P V count s)
    (ha : V.Path a [pml4Index v]) {r u j : ℕ} {q : List ℕ} (hq : V.Path r q)
    (hlq : q.length ≤ 3) (hu : tableAt P s.mem r q = some u) (hj : j < 512)
    (hne : ¬ (u = pt ∧ j = ptIndex v)) : entry s'.mem u j = entry s.mem u j := by
  rw [hset.eq]
  refine entry_setEntry_of_ne (ptIndex_lt v) hj ?_ hne
  exact (h.noAlias hq hlq hu (View.path_pathOf ha) le_rfl hset.table).imp And.right id

/-- The tables above the last ones have their entries unchanged. -/
theorem SetLeaf.entry_inner (hset : SetLeaf P a v e s s' pt) (h : Forest P V count s)
    (ha : V.Path a [pml4Index v]) {r u j : ℕ} {q : List ℕ} (hq : V.Path r q)
    (hlq : q.length ≤ 2) (hu : tableAt P s.mem r q = some u) (hj : j < 512) :
    entry s'.mem u j = entry s.mem u j := by
  refine hset.entry_eq h ha hq (by omega) hu hj ?_
  rintro ⟨rfl, -⟩
  have heq := h.path_unique hq (by omega) hu (View.path_pathOf ha) le_rfl hset.table
  rw [heq] at hlq
  exact absurd hlq (by simp [pathOf])

theorem SetLeaf.tableAt_eq (hset : SetLeaf P a v e s s' pt) (h : Forest P V count s)
    (ha : V.Path a [pml4Index v]) {r : ℕ} {q : List ℕ} (hq : V.Path r q) (hlq : q.length ≤ 3) :
    tableAt P s'.mem r q = tableAt P s.mem r q := by
  refine descend_congr fun p' j hpre u hu => child_congr ?_
  have hpath := hq.initial hpre
  have hlen' : (p' ++ [j]).length ≤ q.length := hpre.length_le
  rw [List.length_append, List.length_singleton] at hlen'
  exact hset.entry_inner h ha hpath.of_append (by omega) hu hpath.last_lt

theorem SetLeaf.forest (hset : SetLeaf P a v e s s' pt) (h : Forest P V count s)
    (ha : V.Path a [pml4Index v]) : Forest P V count s' := by
  have hlist : s'.memList = s.memList := by rw [hset.eq]
  have hpos : s'.stackPosition = s.stackPosition := by rw [hset.eq]
  refine ⟨h.pool.mono hlist hpos.ge, ?_, ?_, ?_⟩
  · intro r r' q q' u u' hq hlq hu hq' hlq' hu'
    rw [hset.tableAt_eq h ha hq hlq] at hu
    rw [hset.tableAt_eq h ha hq' hlq'] at hu'
    exact h.noAlias hq hlq hu hq' hlq' hu'
  · intro r q u hq hlq hu k hk hk'
    rw [hset.tableAt_eq h ha hq hlq] at hu
    rw [frameAt, hlist]
    exact h.fresh hq hlq hu k (hpos ▸ hk) hk'
  · intro r q u j hq hlq hu hpres
    rw [hset.tableAt_eq h ha hq.of_append (by omega)] at hu
    rw [hset.entry_inner h ha hq.of_append hlq hu hq.last_lt] at hpres ⊢
    exact h.joined hq hlq hu hpres

/-- **Frame of the translations**: only addresses that share the entry are translated anew. -/
theorem SetLeaf.lookup_eq (hset : SetLeaf P a v e s s' pt) (h : Forest P V count s)
    (ha : V.Path a [pml4Index v]) {r w : ℕ} (hw : V.Path r [pml4Index w]) :
    lookup P s'.mem r w =
      if tableAt P s.mem r (pathOf w) = some pt ∧ ptIndex w = ptIndex v then
        if present e then some (e &&& pageMask) else none
      else lookup P s.mem r w := by
  have hq := View.path_pathOf hw
  have hlq : (pathOf w).length ≤ 3 := le_rfl
  rw [lookup, lookup, hset.tableAt_eq h ha hq hlq]
  cases hu : tableAt P s.mem r (pathOf w) with
  | none => simp
  | some u =>
    simp only [Option.bind_some, Option.some.injEq]
    split_ifs with hsame hpres
    · obtain ⟨rfl, hidx⟩ := hsame
      rw [leaf, hidx, hset.eq, entry_setEntry_same hset.word, if_pos hpres]
    · obtain ⟨rfl, hidx⟩ := hsame
      rw [leaf, hidx, hset.eq, entry_setEntry_same hset.word, if_neg hpres]
    · exact leaf_congr (hset.entry_eq h ha hq hlq hu (ptIndex_lt w) hsame)

theorem SetLeaf.frame (hset : SetLeaf P a v e s s' pt) (h : Forest P V count s)
    (ha : V.Path a [pml4Index v]) : Frame P V a (pml4Index v) s s' := by
  intro r q u j hq hlq hu hj hnot
  refine hset.entry_eq h ha hq hlq hu hj ?_
  rintro ⟨rfl, -⟩
  obtain rfl := h.path_unique hq hlq hu (View.path_pathOf ha) le_rfl hset.table
  exact hnot ⟨hset.table, by simp [pathOf]⟩

end SetLeaf

/-! ## Mapping -/

theorem le_mapValue_stackPosition (s : State) (root v pa value : ℕ) :
    s.stackPosition ≤ (mapValue P s root v pa value).stackPosition := by
  unfold mapValue
  split_ifs
  · exact le_rfl
  · simp only
    have h₁ := le_nextTable_stackPosition (P := P) (s := s) (t := root) (i := pml4Index v) value
    generalize nextTable P s root (pml4Index v) value = n₁ at h₁ ⊢
    have h₂ := le_nextTable_stackPosition (P := P) (s := n₁.2) (t := n₁.1) (i := hpdIndex v) value
    generalize nextTable P n₁.2 n₁.1 (hpdIndex v) value = n₂ at h₂ ⊢
    have h₃ := le_nextTable_stackPosition (P := P) (s := n₂.2) (t := n₂.1) (i := lpdIndex v) value
    generalize nextTable P n₂.2 n₂.1 (lpdIndex v) value = n₃ at h₃ ⊢
    split_ifs
    · exact h₁.trans (h₂.trans h₃)
    · exact h₁.trans (h₂.trans h₃)

/-- **Mapping**: the forest grows along the path of the address, and then the entry of its last
table is set unless it is present. -/
theorem mapValue_spec {pa value : ℕ} (h : Forest P V count s) (ha : V.Path a [pml4Index v])
    (hroot : a ≠ 0) (hval : Flags value)
    (hroom : (mapValue P s a v pa value).stackPosition ≤ count) :
    ∃ s₁ pt, Grows P V count a (pml4Index v) s s₁ ∧ tableAt P s₁.mem a (pathOf v) = some pt ∧
      mapValue P s a v pa value =
        if present (entry s₁.mem pt (ptIndex v)) then s₁
        else { s₁ with mem := setEntry s₁.mem pt (ptIndex v) (pa ||| value) } := by
  have hfull : V.Path a ([] ++ [pml4Index v] ++ [hpdIndex v] ++ [lpdIndex v]) :=
    View.path_pathOf ha
  simp only [mapValue, if_neg hroot] at hroom ⊢
  -- the stack position only grows, so every level has the room the whole call has
  have hpos {b : Bool} {s₁ : State} {m : Memory}
      (hle : (if b then s₁ else { s₁ with mem := m }).stackPosition ≤ count) :
      s₁.stackPosition ≤ count := by
    split_ifs at hle <;> exact hle
  have hroom₃ := hpos hroom
  have hroom₂ := (le_nextTable_stackPosition value).trans hroom₃
  have hroom₁ := (le_nextTable_stackPosition value).trans hroom₂
  obtain ⟨g₁, t₁⟩ := nextTable_spec (k := pml4Index v) h hfull.of_append.of_append (by simp) rfl
    hval (by simp) hroom₁
  obtain ⟨g₂, t₂⟩ := nextTable_spec (k := pml4Index v) g₁.forest hfull.of_append (by simp) t₁
    hval (by simp) hroom₂
  obtain ⟨g₃, t₃⟩ := nextTable_spec (k := pml4Index v) g₂.forest hfull (by simp) t₂
    hval (by simp) hroom₃
  exact ⟨_, _, (g₁.trans ha g₂).trans ha g₃, t₃, rfl⟩

/-- Mapping a page that is translated leaves the state alone. -/
theorem mapValue_of_lookup {pa value f : ℕ} (hf : lookup P s.mem a v = some f) :
    mapValue P s a v pa value = s := by
  obtain ⟨pt, hpt, hleaf⟩ := Option.bind_eq_some_iff.mp hf
  have hlevel {t i : ℕ} {q : List ℕ} {u : ℕ}
      (hd : descend (child P s.mem) t (i :: q) = some u) :
      ∃ b, nextTable P s t i value = (b, s) ∧ descend (child P s.mem) b q = some u := by
    obtain ⟨b, hb, hrest⟩ := Option.bind_eq_some_iff.mp hd
    unfold child at hb
    split_ifs at hb with hpres
    refine ⟨b, ?_, hrest⟩
    rw [nextTable_of_present hpres, Option.some.inj hb]
  obtain ⟨b₁, h₁, hrest⟩ := hlevel hpt
  obtain ⟨b₂, h₂, hrest⟩ := hlevel hrest
  obtain ⟨b₃, h₃, hrest⟩ := hlevel hrest
  obtain rfl : b₃ = pt := Option.some.inj hrest
  unfold leaf at hleaf
  split_ifs at hleaf with hpres
  simp [mapValue, h₁, h₂, h₃, hpres]

/-- **Two outcomes of a mapping**: nothing happens to a translated page, and for any other page
the forest grows and its entry is set. -/
theorem mapValue_cases {pa value : ℕ} (h : Forest P V count s) (ha : V.Path a [pml4Index v])
    (hroot : a ≠ 0) (hval : Flags value) (hpa : pa < 2 ^ 64)
    (hroom : (mapValue P s a v pa value).stackPosition ≤ count) :
    (∃ f, lookup P s.mem a v = some f ∧ mapValue P s a v pa value = s) ∨
    (lookup P s.mem a v = none ∧ ∃ s₁ pt, Grows P V count a (pml4Index v) s s₁ ∧
      SetLeaf P a v (pa ||| value) s₁ (mapValue P s a v pa value) pt) := by
  cases hlook : lookup P s.mem a v with
  | some f => exact .inl ⟨f, rfl, mapValue_of_lookup hlook⟩
  | none =>
    obtain ⟨s₁, pt, hgrows, htable, heq⟩ := mapValue_spec h ha hroot hval hroom
    have hleaf : leaf s₁.mem pt (ptIndex v) = none := by
      rw [← hgrows.lookup ha, lookup, htable] at hlook
      exact hlook
    have habsent : present (entry s₁.mem pt (ptIndex v)) = false := by
      unfold leaf at hleaf
      split_ifs at hleaf with hpres
      exact Bool.eq_false_iff.mpr hpres
    rw [habsent] at heq
    have hword : pa ||| value < 2 ^ 64 :=
      Nat.or_lt_two_pow hpa (hval.lt.trans (by decide))
    exact .inr ⟨rfl, s₁, pt, hgrows, htable, hword, heq⟩

/-- A mapping level by level. -/
theorem mapValue_eq {pa value : ℕ} (hroot : a ≠ 0) :
    mapValue P s a v pa value =
      let n₁ := nextTable P s a (pml4Index v) value
      let n₂ := nextTable P n₁.2 n₁.1 (hpdIndex v) value
      let n₃ := nextTable P n₂.2 n₂.1 (lpdIndex v) value
      if present (entry n₃.2.mem n₃.1 (ptIndex v)) then n₃.2
      else { n₃.2 with mem := setEntry n₃.2.mem n₃.1 (ptIndex v) (pa ||| value) } := by
  rw [mapValue, if_neg hroot]

/-- The levels of a mapping. -/
theorem nextTable_levels {pa value : ℕ} (h : Forest P V count s) (ha : V.Path a [pml4Index v])
    (hroot : a ≠ 0) (hval : Flags value)
    (hroom : (mapValue P s a v pa value).stackPosition ≤ count) :
    let n₁ := nextTable P s a (pml4Index v) value
    let n₂ := nextTable P n₁.2 n₁.1 (hpdIndex v) value
    let n₃ := nextTable P n₂.2 n₂.1 (lpdIndex v) value
    Level P V count a (pml4Index v) s [] a (pml4Index v) value n₁ ∧
      Level P V count a (pml4Index v) n₁.2 [pml4Index v] n₁.1 (hpdIndex v) value n₂ ∧
      Level P V count a (pml4Index v) n₂.2 [pml4Index v, hpdIndex v] n₂.1 (lpdIndex v) value n₃ := by
  have hfull : V.Path a ([] ++ [pml4Index v] ++ [hpdIndex v] ++ [lpdIndex v]) :=
    View.path_pathOf ha
  -- the stack position only grows, so every level has the room the whole call has
  have hpos {b : Bool} {s₁ : State} {m : Memory}
      (hle : (if b then s₁ else { s₁ with mem := m }).stackPosition ≤ count) :
      s₁.stackPosition ≤ count := by
    split_ifs at hle <;> exact hle
  rw [mapValue_eq hroot] at hroom
  have hroom₃ := hpos hroom
  have hroom₂ := (le_nextTable_stackPosition value).trans hroom₃
  have hroom₁ := (le_nextTable_stackPosition value).trans hroom₂
  have L₁ := nextTable_level (k := pml4Index v) h hfull.of_append.of_append (by simp) rfl hval
    (by simp) hroom₁
  have L₂ := nextTable_level (k := pml4Index v) L₁.grows.forest hfull.of_append (by simp)
    L₁.target hval (by simp) hroom₂
  exact ⟨L₁, L₂, nextTable_level (k := pml4Index v) L₂.grows.forest hfull (by simp) L₂.target hval
    (by simp) hroom₃⟩

/-- **The levels of a mapping** of a page that is not bound, and its last entry. -/
theorem mapValue_levels {pa value : ℕ} (h : Forest P V count s) (ha : V.Path a [pml4Index v]) (hroot : a ≠ 0)
    (hval : Flags value) (hword : pa ||| value < 2 ^ 64)
    (hroom : (mapValue P s a v pa value).stackPosition ≤ count)
    (hlook : lookup P s.mem a v = none) :
    ∃ n₁ n₂ n₃ : ℕ × State,
      Level P V count a (pml4Index v) s [] a (pml4Index v) value n₁ ∧
      Level P V count a (pml4Index v) n₁.2 [pml4Index v] n₁.1 (hpdIndex v) value n₂ ∧
      Level P V count a (pml4Index v) n₂.2 [pml4Index v, hpdIndex v] n₂.1 (lpdIndex v) value n₃ ∧
      present (entry n₃.2.mem n₃.1 (ptIndex v)) = false ∧
      SetLeaf P a v (pa ||| value) n₃.2 (mapValue P s a v pa value) n₃.1 := by
  obtain ⟨L₁, L₂, L₃⟩ := nextTable_levels h ha hroot hval hroom
  -- the last entry is absent, since the page is not bound
  have hnone := ((L₁.grows.trans ha L₂.grows).trans ha L₃.grows).lookup ha
  rw [hlook, lookup, show tableAt P _ a (pathOf v) = some _ from L₃.target] at hnone
  refine ⟨_, _, _, L₁, L₂, L₃, ?_⟩
  rw [mapValue_eq hroot]
  dsimp only
  cases hpres : present (entry _ _ (ptIndex v)) with
  | true => simp [leaf, hpres] at hnone
  | false => exact ⟨rfl, L₃.target, hword, rfl⟩

/-- A level writes the table that it starts from and the table that it makes. -/
theorem nextTable_apply {k value b : ℕ} (L : Level P V count a k s p t i value (nextTable P s t i value))
    (hsource : ¬ (t ≤ b ∧ b < t + 4096))
    (htarget : ¬ ((nextTable P s t i value).1 ≤ b ∧ b < (nextTable P s t i value).1 + 4096)) :
    (nextTable P s t i value).2.mem b = s.mem b := by
  by_cases hpres : present (entry s.mem t i) = true
  · rw [nextTable_of_present hpres]
  · rcases L.outcome with ⟨hthere, -⟩ | ⟨hlt, hframe, -, -⟩
    · exact absurd hthere hpres
    · have hi := L.path.last_lt
      have haccess : s.memList s.stackPosition ||| P.hhdmOffset = frameAt P s s.stackPosition :=
        lor_eq_add_of_land_eq_zero (L.forest.pool.disjoint _ le_rfl hlt)
      rw [hframe] at htarget
      rw [Bool.not_eq_true] at hpres
      simp only [nextTable, hpres, kernelAllocateFrame, haccess]
      change setEntry _ _ _ _ b = _
      rw [setEntry, store64_apply_of_not_mem (by omega), memset_apply_of_not_mem htarget]

/-- **Frame of a mapping**: bytes outside of the tables of the root stay. -/
theorem mapValue_apply {pa value b : ℕ} (h : Forest P V count s) (ha : V.Path a [pml4Index v])
    (hroot : a ≠ 0) (hval : Flags value) (hword : pa ||| value < 2 ^ 64)
    (hroom : (mapValue P s a v pa value).stackPosition ≤ count)
    (hb : ∀ q t, V.Path a q → q.length ≤ 3 →
      tableAt P (mapValue P s a v pa value).mem a q = some t → ¬ (t ≤ b ∧ b < t + 4096)) :
    (mapValue P s a v pa value).mem b = s.mem b := by
  have hmap : mapValue P s a v pa value = _ := mapValue_eq hroot
  obtain ⟨L₁, L₂, L₃⟩ := nextTable_levels h ha hroot hval hroom
  set n₁ := nextTable P s a (pml4Index v) value
  set n₂ := nextTable P n₁.2 n₁.1 (hpdIndex v) value
  set n₃ := nextTable P n₂.2 n₂.1 (lpdIndex v) value
  dsimp only at hmap
  have hpath : V.Path a (pathOf v) := View.path_pathOf ha
  have hpath₂ : V.Path a [pml4Index v, hpdIndex v] := L₃.path.of_append
  have hset : SetLeaf P a v (pa ||| value) n₃.2
      { n₃.2 with mem := setEntry n₃.2.mem n₃.1 (ptIndex v) (pa ||| value) } n₃.1 :=
    ⟨L₃.target, hword, rfl⟩
  -- tables on the way are there at the end
  have hlast : ∀ q t, V.Path a q → q.length ≤ 3 → tableAt P n₃.2.mem a q = some t →
      ¬ (t ≤ b ∧ b < t + 4096) := by
    intro q t hq hlq ht
    refine hb q t hq hlq ?_
    rw [hmap]
    split_ifs
    · exact ht
    · rw [hset.tableAt_eq L₃.grows.forest ha hq hlq]
      exact ht
  have h₃ := hlast _ _ hpath le_rfl L₃.target
  have h₂ := hlast _ _ hpath₂ (by simp) (L₃.grows.keep hpath₂ (by simp) L₂.target)
  have h₁ := hlast _ _ ha (by simp)
    (L₃.grows.keep ha (by simp) (L₂.grows.keep ha (by simp) L₁.target))
  have h₀ := hlast [] a L₁.path.of_append (by simp) rfl
  have hlevels : n₃.2.mem b = s.mem b :=
    ((nextTable_apply L₃ h₂ h₃).trans (nextTable_apply L₂ h₁ h₂)).trans (nextTable_apply L₁ h₀ h₁)
  rw [hmap]
  split_ifs
  · exact hlevels
  · have hi := ptIndex_lt v
    have hout : ¬ (n₃.1 + 8 * ptIndex v ≤ b ∧ b < n₃.1 + 8 * ptIndex v + 8) := by omega
    exact (store64_apply_of_not_mem hout).trans hlevels

/-! ## Unmapping -/

theorem joinTable_lor_hhdmOffset (e : ℕ) : joinTable P (e ||| P.hhdmOffset) = joinTable P e := by
  apply Nat.eq_of_testBit_eq
  intro k
  simp only [joinTable, Nat.testBit_or, Nat.testBit_and]
  cases e.testBit k <;> cases P.hhdmOffset.testBit k <;> simp

/-- **Unmapping**: the entry of a translated address is cleared, and nothing happens where the
address is not translated. -/
theorem kernelUnmapPage_spec (s : State) (hroot : a ≠ 0) (v : ℕ) :
    (∃ pt f, lookup P s.mem a v = some f ∧
      kernelUnmapPage P s a v = (0, { s with mem := setEntry s.mem pt (ptIndex v) 0 }) ∧
      tableAt P s.mem a (pathOf v) = some pt) ∨
    (lookup P s.mem a v = none ∧ (kernelUnmapPage P s a v).1 < 0 ∧
      (kernelUnmapPage P s a v).2 = s) := by
  simp only [lookup, tableAt, pathOf, descend_cons, descend_nil, child, leaf, kernelUnmapPage,
    if_neg hroot, joinTable_lor_hhdmOffset]
  cases h₁ : present (entry s.mem a (pml4Index v)) with
  | false => simp
  | true =>
    generalize joinTable P (entry s.mem a (pml4Index v)) = hpd
    cases h₂ : present (entry s.mem hpd (hpdIndex v)) with
    | false => simp [h₂]
    | true =>
      generalize hlpd : joinTable P (entry s.mem hpd (hpdIndex v)) = lpd
      cases h₃ : present (entry s.mem lpd (lpdIndex v)) with
      | false => simp [h₂, h₃, hlpd]
      | true =>
        generalize hpt : joinTable P (entry s.mem lpd (lpdIndex v)) = pt
        cases h₄ : present (entry s.mem pt (ptIndex v)) with
        | false => simp [h₂, h₃, h₄, hlpd, hpt]
        | true => simp [h₂, h₃, h₄, hlpd, hpt]

/-! ## The reader -/

/-- The page number an entry names is no error code. -/
theorem leaf_mod {m : Memory} {f : ℕ} (h : leaf m t i = some f) : f % 4096 = 0 ∧ f < 2 ^ 63 := by
  unfold leaf at h
  split_ifs at h
  obtain rfl := Option.some.inj h
  exact ⟨land_pageMask_mod _, Nat.and_lt_two_pow _ (by decide)⟩

theorem lookup_mod {m : Memory} {f : ℕ} (h : lookup P m a v = some f) :
    f % 4096 = 0 ∧ f < 2 ^ 63 := by
  obtain ⟨pt, -, hleaf⟩ := Option.bind_eq_some_iff.mp h
  exact leaf_mod hleaf

/-- The reader steps from a table to the next one of the forest. -/
theorem Forest.tableAt_snoc (h : Forest P V count s) (hp : V.Path a (p ++ [i]))
    (hlen : p.length ≤ 2) (ht : tableAt P s.mem a p = some t)
    (hpres : present (entry s.mem t i) = true) :
    tableAt P s.mem a (p ++ [i]) = some (addTable P (entry s.mem t i)) := by
  have hbits := h.joined hp hlen ht hpres
  unfold tableAt at *
  rw [descend_snoc, ht, Option.bind_some, child_of_present hpres, addTable_eq_joinTable hbits]

/-- What `KernelGetPhysicalAddress` returns, as an outcome. -/
def Returns (result : ℕ) : Option ℕ → Prop
  | some f => result = f
  | none => 2 ^ 64 - 4 ≤ result ∧ result < 2 ^ 64

/-- **The reader computes `lookup`.** -/
theorem kernelGetPhysicalAddress_returns (h : Forest P V count s) (ha : V.Path a [pml4Index v]) :
    Returns (kernelGetPhysicalAddress P s a v) (lookup P s.mem a v) := by
  have hfull : V.Path a ([] ++ [pml4Index v] ++ [hpdIndex v] ++ [lpdIndex v]) :=
    View.path_pathOf ha
  have hnone {p q : List ℕ} {t i : ℕ} (ht : tableAt P s.mem a p = some t)
      (hpres : present (entry s.mem t i) = false) : tableAt P s.mem a (p ++ i :: q) = none :=
    descend_of_absent ht (child_of_not_present hpres)
  simp only [kernelGetPhysicalAddress, lookup]
  -- level by level: an absent entry ends both the reader and the path
  cases h₁ : present (entry s.mem a (pml4Index v)) with
  | false =>
    rw [show tableAt P s.mem a (pathOf v) = none from hnone (p := []) rfl h₁]
    simp [Returns]
  | true =>
    have t₁ := h.tableAt_snoc hfull.of_append.of_append (by simp) rfl h₁
    cases h₂ : present (entry s.mem (addTable P (entry s.mem a (pml4Index v))) (hpdIndex v)) with
    | false =>
      rw [show tableAt P s.mem a (pathOf v) = none from hnone t₁ h₂]
      simp [Returns]
    | true =>
      have t₂ := h.tableAt_snoc hfull.of_append (by simp) t₁ h₂
      generalize entry s.mem (addTable P (entry s.mem a (pml4Index v))) (hpdIndex v) = lpd
        at h₂ t₂ ⊢
      cases h₃ : present (entry s.mem (addTable P lpd) (lpdIndex v)) with
      | false =>
        rw [show tableAt P s.mem a (pathOf v) = none from hnone t₂ h₃]
        simp [Returns]
      | true =>
        have t₃ := h.tableAt_snoc hfull (by simp) t₂ h₃
        rw [show tableAt P s.mem a (pathOf v) = _ from t₃]
        generalize entry s.mem (addTable P lpd) (lpdIndex v) = pt at h₃ t₃ ⊢
        simp only [Bool.not_true, Bool.false_eq_true, if_false, Option.bind_some, leaf]
        cases h₄ : present (entry s.mem (addTable P pt) (ptIndex v)) with
        | false => simp [Returns]
        | true => simp [Returns]

/-- The reader depends on the slot of the root and on the tables below it. -/
theorem kernelGetPhysicalAddress_congr_root {r r' : ℕ}
    (h : entry s.mem r (pml4Index v) = entry s.mem r' (pml4Index v)) :
    kernelGetPhysicalAddress P s r v = kernelGetPhysicalAddress P s r' v := by
  simp only [kernelGetPhysicalAddress, h]

theorem lookup_congr_root {r r' : ℕ}
    (h : entry s.mem r (pml4Index v) = entry s.mem r' (pml4Index v)) :
    lookup P s.mem r v = lookup P s.mem r' v := by
  simp only [lookup, tableAt, pathOf, descend_cons, child, h]

/-- The reader depends on the entries of the tables on its path. -/
theorem kernelGetPhysicalAddress_congr (h : Forest P V count s) (ha : V.Path a [pml4Index v])
    (hentry : ∀ q u k, q <+: pathOf v → tableAt P s.mem a q = some u → k < 512 →
      entry s'.mem u k = entry s.mem u k) :
    kernelGetPhysicalAddress P s' a v = kernelGetPhysicalAddress P s a v := by
  have hfull : V.Path a ([] ++ [pml4Index v] ++ [hpdIndex v] ++ [lpdIndex v]) :=
    View.path_pathOf ha
  simp only [kernelGetPhysicalAddress]
  rw [hentry [] a _ List.nil_prefix rfl (pml4Index_lt v)]
  cases h₁ : present (entry s.mem a (pml4Index v)) with
  | false => simp only [Bool.not_false, if_true]
  | true =>
    have t₁ := h.tableAt_snoc hfull.of_append.of_append (by simp) rfl h₁
    rw [hentry _ _ _ ⟨[hpdIndex v, lpdIndex v], rfl⟩ t₁ (hpdIndex_lt v)]
    generalize addTable P (entry s.mem a (pml4Index v)) = hpd at t₁ ⊢
    cases h₂ : present (entry s.mem hpd (hpdIndex v)) with
    | false => simp only [Bool.not_false, if_true]
    | true =>
      have t₂ := h.tableAt_snoc hfull.of_append (by simp) t₁ h₂
      rw [hentry _ _ _ ⟨[lpdIndex v], rfl⟩ t₂ (lpdIndex_lt v)]
      generalize addTable P (entry s.mem hpd (hpdIndex v)) = lpd at t₂ ⊢
      cases h₃ : present (entry s.mem lpd (lpdIndex v)) with
      | false => simp only [Bool.not_false, if_true]
      | true =>
        have t₃ := h.tableAt_snoc hfull (by simp) t₂ h₃
        rw [hentry _ _ _ ⟨[], rfl⟩ t₃ (ptIndex_lt v)]

theorem kernelGetPhysicalAddress_of_absent
    (h : present (entry s.mem a (pml4Index v)) = false) :
    kernelGetPhysicalAddress P s a v = 2 ^ 64 - 4 := by
  simp [kernelGetPhysicalAddress, h]

/-- The translation of an address that is translated differs from every error code. -/
theorem Returns.ne_of_lookup {result result' f : ℕ} {o : Option ℕ} (h : Returns result (some f))
    (hf : f % 4096 = 0 ∧ f < 2 ^ 63) (h' : Returns result' o) (hne : o ≠ some f) :
    result ≠ result' := by
  rintro rfl
  cases o with
  | none =>
    obtain ⟨hlo, -⟩ := h'
    simp only [Returns] at h
    omega
  | some f' => exact hne (congrArg some (h'.symm.trans h))

end Cutesugar.Kernel.Mmu
