import Cutesugar.Kernel.Arch.Exhaustion

/-!
# Memory at virtual addresses

What the kernel reads and writes at a virtual address is a byte of a frame, and the tables say of
which. Pages are bound to frames of the pool one after the other, and bytes are copied to pages that
are bound; the frames keep what they held wherever nothing is copied to.

- `physical`, `copyTo`: a virtual address, and `memcpy` to one.
- `Owned`: pages of which each is bound to a frame of its own that is no table.
- `Loaded`: what such pages hold after some pages were bound and some bytes copied.
-/

namespace Cutesugar.Kernel.Mmu

open Lib Lib.Memory

variable (P : Platform)

/-- Where the flat memory has the byte at a virtual address; `none` is a fault. -/
def physical (m : Memory) (root v : ℕ) : Option ℕ :=
  if Canonical v then (lookup P m root v).map fun f => f + P.hhdmOffset + v % 4096 else none

/-- `memcpy` to a virtual address. -/
def copyTo (root : ℕ) (m : Memory) (v : ℕ) : List UInt8 → Option Memory
  | [] => some m
  | b :: bs => do
    let a ← physical P m root (v % 2 ^ 64)
    copyTo root (Function.update m a b) (v + 1) bs

/-- The byte that is read at a virtual address. -/
def byteAt (m : Memory) (root v : ℕ) : Option UInt8 := (physical P m root v).map m

/-- A page is bound to the next frame of the pool, for everybody to use. -/
def mapFrame (s : State) (root v : ℕ) : State :=
  let (frame, s) := kernelAllocateFrame s
  kernelMapPage P s root v frame 1

/-! ## Addresses -/

/-- The canonical address with the bits that select entries. -/
def canon (v : ℕ) : ℕ :=
  if v % 2 ^ 48 < 2 ^ 47 then v % 2 ^ 48 else v % 2 ^ 48 + (2 ^ 64 - 2 ^ 48)

theorem canonical_canon (v : ℕ) : Canonical (canon v) := by
  unfold canon Canonical
  split_ifs
  · omega
  · omega

theorem canon_of_canonical {v : ℕ} (h : Canonical v) : canon v = v := by
  unfold canon
  unfold Canonical at h
  split_ifs
  · omega
  · omega

theorem indices_canon (v : ℕ) : pml4Index (canon v) = pml4Index v ∧
    hpdIndex (canon v) = hpdIndex v ∧ lpdIndex (canon v) = lpdIndex v ∧
    ptIndex (canon v) = ptIndex v := by
  simp only [pml4Index, hpdIndex, lpdIndex, ptIndex, land_511, Nat.shiftRight_eq_div_pow]
  unfold canon
  split_ifs
  · omega
  · omega

variable {P} {root count : ℕ} {s s' : State} {M : PageMap} {U : Set ℕ} {v : ℕ}

theorem mapFrame_canon : mapFrame P s root (canon v) = mapFrame P s root v := by
  obtain ⟨h₁, h₂, h₃, h₄⟩ := indices_canon v
  simp only [mapFrame, kernelMapPage, mapValue, h₁, h₂, h₃, h₄]

theorem physical_eq (h : Refines P root count s M) (hv : Canonical v) :
    physical P s.mem root v = (M (v / 4096)).map fun f => f + P.hhdmOffset + v % 4096 := by
  rw [physical, if_pos hv, h.lookup v hv]

/-! ## What a page takes from the pool -/

theorem nextTable_pool (P : Platform) (s : State) (t i value : ℕ) :
    (nextTable P s t i value).2.memList = s.memList ∧
      (nextTable P s t i value).2.stackPosition ≤ s.stackPosition + 1 := by
  simp only [nextTable, kernelAllocateFrame]
  split_ifs
  · exact ⟨rfl, Nat.le_succ _⟩
  · exact ⟨rfl, le_rfl⟩

theorem mapValue_pool (P : Platform) (s : State) (root v pa value : ℕ) :
    (mapValue P s root v pa value).memList = s.memList ∧
      (mapValue P s root v pa value).stackPosition ≤ s.stackPosition + 3 := by
  unfold mapValue
  split_ifs
  · exact ⟨rfl, Nat.le_add_right ..⟩
  · simp only
    obtain ⟨hlist₁, hpos₁⟩ := nextTable_pool P s root (pml4Index v) value
    generalize nextTable P s root (pml4Index v) value = n₁ at *
    obtain ⟨hlist₂, hpos₂⟩ := nextTable_pool P n₁.2 n₁.1 (hpdIndex v) value
    generalize nextTable P n₁.2 n₁.1 (hpdIndex v) value = n₂ at *
    obtain ⟨hlist₃, hpos₃⟩ := nextTable_pool P n₂.2 n₂.1 (lpdIndex v) value
    generalize nextTable P n₂.2 n₂.1 (lpdIndex v) value = n₃ at *
    have hlist := (hlist₃.trans hlist₂).trans hlist₁
    have hpos : n₃.2.stackPosition ≤ s.stackPosition + 3 := by omega
    split_ifs
    · exact ⟨hlist, hpos⟩
    · exact ⟨hlist, hpos⟩

/-- A page takes at most one frame for itself and three for tables. -/
theorem mapFrame_pool (P : Platform) (s : State) (root v : ℕ) :
    (mapFrame P s root v).memList = s.memList ∧
      (mapFrame P s root v).stackPosition ≤ s.stackPosition + 4 := by
  obtain ⟨hlist, hpos⟩ := mapValue_pool P (kernelAllocateFrame s).2 root v (s.memList s.stackPosition) 7
  have hframe : (kernelAllocateFrame s).2.stackPosition = s.stackPosition + 1 := rfl
  exact ⟨hlist, hpos.trans (by omega)⟩

/-! ## Pages with frames of their own -/

/-- The pages of a set are bound to frames of their own: none of them is bound twice, is a table or
is left in the pool. -/
structure Owned (P : Platform) (root count : ℕ) (s : State) (M : PageMap) (U : Set ℕ) : Prop where
  refines : Refines P root count s M
  canonical : ∀ p ∈ U, Canonical (4096 * p)
  distinct : ∀ p ∈ U, ∀ q ∈ U, ∀ f, M p = some f → M q = some f → p = q
  tables : ∀ p ∈ U, ∀ f, M p = some f → ∀ q t, (View.single root).Path root q → q.length ≤ 3 →
    tableAt P s.mem root q = some t → Apart (f + P.hhdmOffset) 4096 t 4096
  unused : ∀ p ∈ U, ∀ f, M p = some f → ∀ k, s.stackPosition ≤ k → k < count → f ≠ s.memList k

theorem Owned.aligned (h : Owned P root count s M U) {p f : ℕ} (hp : p ∈ U) (hf : M p = some f) :
    f % 4096 = 0 := by
  have hlook := h.refines.lookup (4096 * p) (h.canonical p hp)
  rw [Nat.mul_div_cancel_left p (by decide), hf] at hlook
  exact (lookup_mod hlook).1

/-- Bytes of different frames are different. -/
theorem frame_byte_inj {f g o o' : ℕ} (hf : f % 4096 = 0) (hg : g % 4096 = 0) (ho : o < 4096)
    (ho' : o' < 4096) (h : f + P.hhdmOffset + o = g + P.hhdmOffset + o') : f = g ∧ o = o' := by
  omega

/-- Taking a frame from the pool. -/
theorem Refines.allocate (h : Refines P root count s M) :
    Refines P root count (kernelAllocateFrame s).2 M where
  forest := {
    pool := h.forest.pool.mono rfl (Nat.le_succ _)
    noAlias := h.forest.noAlias
    fresh := fun hp hlen ht k hk hk' => h.forest.fresh hp hlen ht k (Nat.le_of_succ_le hk) hk'
    joined := h.forest.joined }
  lookup := h.lookup

theorem Owned.allocate (h : Owned P root count s M U) :
    Owned P root count (kernelAllocateFrame s).2 M U where
  refines := h.refines.allocate
  canonical := h.canonical
  distinct := h.distinct
  tables := h.tables
  unused p hp f hf k hk := h.unused p hp f hf k (Nat.le_of_succ_le hk)

/-- What binding a page to the next frame does. -/
structure Binds (P : Platform) (root count : ℕ) (s s' : State) (M M' : PageMap) (U : Set ℕ) :
    Prop where
  owned : Owned P root count s' M' U
  list : s'.memList = s.memList
  pos : s.stackPosition < s'.stackPosition
  frames : ∀ p ∈ U, ∀ f, M' p = some f → ∀ o < 4096,
    s'.mem (f + P.hhdmOffset + o) = s.mem (f + P.hhdmOffset + o)
  pool : ∀ k, s'.stackPosition ≤ k → k < count → ∀ o < 4096,
    s'.mem (frameAt P s k + o) = s.mem (frameAt P s k + o)

theorem PageMap.map_of_isSome {p f : ℕ} (h : (M p).isSome) : M.map p f = M := if_pos h

/-- What a page is bound to after one was bound. -/
theorem PageMap.map_eq_some {p f q g : ℕ} (h : M.map p f q = some g) :
    M q = some g ∨ (q = p ∧ g = f ∧ M p = none) := by
  unfold PageMap.map at h
  split_ifs at h with hsome
  · exact .inl h
  · rcases eq_or_ne q p with rfl | hne
    · rw [Function.update_self] at h
      exact .inr ⟨rfl, (Option.some.inj h).symm, Option.not_isSome_iff_eq_none.mp hsome⟩
    · rw [Function.update_of_ne hne] at h
      exact .inl h

/-- **Binding a page** to the next frame of the pool. -/
theorem Owned.mapFrame (h : Owned P root count s M U) (hroot : root ≠ 0) (v : ℕ)
    (hroom : (mapFrame P s root v).stackPosition ≤ count) :
    Binds P root count s (mapFrame P s root v) M
      (M.map (canon v / 4096) (s.memList s.stackPosition)) U := by
  rw [← mapFrame_canon] at hroom ⊢
  have hv := canonical_canon v
  generalize canon v = v at hroom hv ⊢
  have hallocate := h.refines.allocate
  have hflags := flags_user 1
  have hle : s.stackPosition + 1 ≤ (Mmu.mapFrame P s root v).stackPosition :=
    le_mapValue_stackPosition (kernelAllocateFrame s).2 root v _ _
  have hlt : s.stackPosition < count := by omega
  have hpool := h.refines.forest.pool
  have haligned := hpool.aligned _ le_rfl hlt
  have hbelow := hpool.below _ le_rfl hlt
  have hpath := View.single_path root v
  have hpa : s.memList s.stackPosition < 2 ^ 64 := hbelow.trans (by decide)
  have hrefines := hallocate.bind hroot hv haligned hbelow hflags hroom
  obtain ⟨htakes, hlist⟩ := mapValue_takes hallocate.forest hpath hroot hflags hpa hroom
  have hword : s.memList s.stackPosition ||| (if (1 : UInt8) ≠ 0 then 7 else 3) < 2 ^ 64 :=
    Nat.or_lt_two_pow hpa (hflags.lt.trans (by decide))
  have hbytes (b : ℕ) := mapValue_apply (b := b) hallocate.forest hpath hroot hflags hword hroom
  change ∀ b, _ → (Mmu.mapFrame P s root v).mem b = s.mem b at hbytes
  change Refines P root count (Mmu.mapFrame P s root v) _ at hrefines
  change TakesTables P _ (kernelAllocateFrame s).2 (Mmu.mapFrame P s root v) at htakes
  change (Mmu.mapFrame P s root v).memList = s.memList at hlist
  change ∀ b, (∀ q t, _ → _ → tableAt P (Mmu.mapFrame P s root v).mem root q = some t → _) → _
    at hbytes
  generalize Mmu.mapFrame P s root v = s' at *
  -- the frames that pages are bound to are no tables afterwards
  have htables : ∀ p ∈ U, ∀ f, M.map (v / 4096) (s.memList s.stackPosition) p = some f →
      ∀ q t, (View.single root).Path root q → q.length ≤ 3 → tableAt P s'.mem root q = some t →
        Apart (f + P.hhdmOffset) 4096 t 4096 := by
    intro p hp f hf q t hq hlq ht
    rcases htakes hq hlq ht with hold | ⟨k, hk, hk', rfl⟩
    · rcases PageMap.map_eq_some hf with hf | ⟨rfl, rfl, -⟩
      · exact h.tables p hp f hf q t hq hlq hold
      · exact (h.refines.forest.fresh hq hlq hold _ le_rfl hlt).symm
    · have hk₀ : s.stackPosition ≤ k := Nat.le_of_succ_le hk
      have hkc : k < count := hk'.trans_le hroom
      rcases PageMap.map_eq_some hf with hf | ⟨rfl, rfl, -⟩
      · have hne := h.unused p hp f hf k hk₀ hkc
        have hf0 := h.aligned hp hf
        have hk0 := hpool.aligned k hk₀ hkc
        unfold Apart frameAt
        change f + P.hhdmOffset + 4096 ≤ s.memList k + P.hhdmOffset ∨
          s.memList k + P.hhdmOffset + 4096 ≤ f + P.hhdmOffset
        omega
      · exact hpool.apart le_rfl hlt hk₀ hkc (Nat.ne_of_lt hk)
  refine ⟨⟨hrefines, h.canonical, ?_, htables, ?_⟩, hlist, hle, ?_, ?_⟩
  · intro p hp q hq f hf hf'
    rcases PageMap.map_eq_some hf with hf | ⟨rfl, rfl, -⟩
    · rcases PageMap.map_eq_some hf' with hf' | ⟨rfl, rfl, -⟩
      · exact h.distinct p hp q hq f hf hf'
      · exact absurd rfl (h.unused p hp _ hf _ le_rfl hlt)
    · rcases PageMap.map_eq_some hf' with hf' | ⟨rfl, -, -⟩
      · exact absurd rfl (h.unused q hq _ hf' _ le_rfl hlt)
      · rfl
  · intro p hp f hf k hk hk'
    rw [hlist]
    have hk₀ : s.stackPosition < k := Nat.lt_of_succ_le (hle.trans hk)
    rcases PageMap.map_eq_some hf with hf | ⟨rfl, rfl, -⟩
    · exact h.unused p hp f hf k hk₀.le hk'
    · exact fun heq => hk₀.ne (hpool.distinct _ k le_rfl hlt hk₀.le hk' heq)
  · intro p hp f hf o ho
    exact hbytes _ fun q t hq hlq ht => (htables p hp f hf q t hq hlq ht).not_mem ho
  · intro k hk hk' o ho
    refine hbytes _ fun q t hq hlq ht => ?_
    have hfresh := hrefines.forest.fresh hq hlq ht k hk hk'
    rw [frameAt, hlist] at hfresh
    exact hfresh.symm.not_mem ho

/-! ## Writing to a page -/

/-- The state with another memory. -/
abbrev State.withMem (s : State) (m : Memory) : State := { s with mem := m }

section Congr

variable {V : View} {m : Memory}

theorem tableAt_congr {r : ℕ} {q : List ℕ} (hq : V.Path r q) (hlq : q.length ≤ 3)
    (hentry : ∀ r q u j, V.Path r q → q.length ≤ 3 → tableAt P s.mem r q = some u → j < 512 →
      entry m u j = entry s.mem u j) : tableAt P m r q = tableAt P s.mem r q := by
  refine descend_congr fun p j hpre u hu => child_congr ?_
  have hpath := hq.initial hpre
  have hlen : (p ++ [j]).length ≤ q.length := hpre.length_le
  rw [List.length_append, List.length_singleton] at hlen
  exact hentry r p u j hpath.of_append (by omega) hu hpath.last_lt

/-- A memory with the same tables. -/
theorem Forest.congr (h : Forest P V count s)
    (hentry : ∀ r q u j, V.Path r q → q.length ≤ 3 → tableAt P s.mem r q = some u → j < 512 →
      entry m u j = entry s.mem u j) : Forest P V count (s.withMem m) where
  pool := h.pool.mono rfl le_rfl
  noAlias hp hlp ht hq hlq hu := by
    rw [tableAt_congr hp hlp hentry] at ht
    rw [tableAt_congr hq hlq hentry] at hu
    exact h.noAlias hp hlp ht hq hlq hu
  fresh hp hlp ht := by
    rw [tableAt_congr hp hlp hentry] at ht
    exact h.fresh hp hlp ht
  joined hp hlp ht hpres := by
    rw [tableAt_congr hp.of_append (by omega) hentry] at ht
    rw [hentry _ _ _ _ hp.of_append (by omega) ht hp.last_lt] at hpres ⊢
    exact h.joined hp hlp ht hpres

theorem Refines.congr (h : Refines P root count s M)
    (hentry : ∀ q u j, (View.single root).Path root q → q.length ≤ 3 →
      tableAt P s.mem root q = some u → j < 512 → entry m u j = entry s.mem u j) :
    Refines P root count (s.withMem m) M := by
  have hsingle : ∀ r q u j, (View.single root).Path r q → q.length ≤ 3 →
      tableAt P s.mem r q = some u → j < 512 → entry m u j = entry s.mem u j := by
    intro r q u j hq hlq hu hj
    obtain rfl : r = root := hq.1
    exact hentry q u j hq hlq hu hj
  refine ⟨h.forest.congr hsingle, fun v hv => ?_⟩
  have hpath := View.path_pathOf (View.single_path root v)
  rw [← h.lookup v hv, Mmu.lookup, Mmu.lookup, tableAt_congr hpath le_rfl hsingle]
  cases hpt : tableAt P s.mem root (pathOf v) with
  | none => rfl
  | some pt => exact leaf_congr (hsingle root _ pt _ hpath le_rfl hpt (ptIndex_lt v))

end Congr

/-- A memory with the same tables, and pages with frames of their own. -/
theorem Owned.congr (h : Owned P root count s M U) {m : Memory}
    (hentry : ∀ q u j, (View.single root).Path root q → q.length ≤ 3 →
      tableAt P s.mem root q = some u → j < 512 → entry m u j = entry s.mem u j) :
    Owned P root count (s.withMem m) M U where
  refines := h.refines.congr hentry
  canonical := h.canonical
  distinct := h.distinct
  tables p hp f hf q t hq hlq ht := by
    have hsingle : ∀ r q u j, (View.single root).Path r q → q.length ≤ 3 →
        tableAt P s.mem r q = some u → j < 512 → entry m u j = entry s.mem u j := by
      intro r q u j hq hlq hu hj
      obtain rfl : r = root := hq.1
      exact hentry q u j hq hlq hu hj
    have ht' : tableAt P m root q = some t := ht
    rw [tableAt_congr hq hlq hsingle] at ht'
    exact h.tables p hp f hf q t hq hlq ht'
  unused := h.unused

/-- **Writing a byte** of a frame that is no table. -/
theorem Owned.write (h : Owned P root count s M U) {p f o : ℕ} (hp : p ∈ U) (hf : M p = some f)
    (ho : o < 4096) (b : UInt8) :
    Owned P root count (s.withMem (Function.update s.mem (f + P.hhdmOffset + o) b)) M U := by
  refine h.congr fun q u j hq hlq hu hj => ?_
  have hout := (h.tables p hp f hf q u hq hlq hu).not_mem ho
  refine load64_congr fun c hc hc' => Function.update_of_ne ?_ ..
  omega

/-- A memory that differs in the frames of the pool only. -/
def SameButFree (P : Platform) (count : ℕ) (s : State) (m : Memory) : Prop :=
  ∀ b, (∀ k, s.stackPosition ≤ k → k < count →
    ¬ (frameAt P s k ≤ b ∧ b < frameAt P s k + 4096)) → m b = s.mem b

/-- The memory with one byte all over the frames of the pool. -/
def filled (P : Platform) (count : ℕ) (s : State) (b : UInt8) : Memory := fun a =>
  if ∃ k < count, s.stackPosition ≤ k ∧ frameAt P s k ≤ a ∧ a < frameAt P s k + 4096 then b
  else s.mem a

theorem sameButFree_filled (b : UInt8) : SameButFree P count s (filled P count s b) := by
  intro a ha
  apply if_neg
  rintro ⟨k, hk', hk, hin⟩
  exact ha k hk hk' hin

theorem filled_frame {k o : ℕ} (b : UInt8) (hk : s.stackPosition ≤ k) (hk' : k < count)
    (ho : o < 4096) : filled P count s b (frameAt P s k + o) = b :=
  if_pos ⟨k, hk', hk, Nat.le_add_right .., Nat.add_lt_add_left ho _⟩

/-- What the frames of the pool hold makes no difference to the tables. -/
theorem Owned.sameButFree (h : Owned P root count s M U) {m : Memory}
    (hm : SameButFree P count s m) : Owned P root count (s.withMem m) M U := by
  refine h.congr fun q u j hq hlq hu hj => ?_
  refine load64_congr fun c hc hc' => hm c fun k hk hk' => ?_
  have hfresh := h.refines.forest.fresh hq hlq hu k hk hk'
  unfold Apart at hfresh
  omega

/-! ## What pages hold -/

/-- Bytes put at addresses, over what was put there before. -/
def put (W : ℕ → Option UInt8) (v : ℕ) : List UInt8 → ℕ → Option UInt8
  | [] => W
  | b :: bs => put (Function.update W (v % 2 ^ 64) (some b)) (v + 1) bs

/-- **What pages of a set hold** after some of them were bound and the bytes `W` copied, since the
state `s₀` in which `M₀` was bound: the bytes that were copied, and elsewhere what the frames held. -/
structure Loaded (P : Platform) (root count : ℕ) (U : Set ℕ) (s₀ : State) (M₀ : PageMap) (s : State)
    (M : PageMap) (W : ℕ → Option UInt8) : Prop where
  owned : Owned P root count s M U
  list : s.memList = s₀.memList
  pos : s₀.stackPosition ≤ s.stackPosition
  keep : ∀ p f, M₀ p = some f → M p = some f
  new : ∀ p f, M p = some f → M₀ p = some f ∨ M₀ p = none ∧
    ∃ k, s₀.stackPosition ≤ k ∧ k < s.stackPosition ∧ f = s₀.memList k
  bytes : ∀ p ∈ U, ∀ f, M p = some f → ∀ o < 4096,
    s.mem (f + P.hhdmOffset + o) = (W (4096 * p + o)).getD (s₀.mem (f + P.hhdmOffset + o))
  pool : ∀ k, s.stackPosition ≤ k → k < count → ∀ o < 4096,
    s.mem (frameAt P s₀ k + o) = s₀.mem (frameAt P s₀ k + o)
  bound : ∀ v, v / 4096 ∈ U → W v ≠ none → (M (v / 4096)).isSome

variable {s₀ : State} {M₀ : PageMap} {W : ℕ → Option UInt8}

theorem Loaded.start (h : Owned P root count s M U) :
    Loaded P root count U s M s M fun _ => none where
  owned := h
  list := rfl
  pos := le_rfl
  keep _ _ hf := hf
  new _ _ hf := .inl hf
  bytes _ _ _ _ _ _ := rfl
  pool _ _ _ _ _ := rfl
  bound _ _ hne := absurd rfl hne

theorem Loaded.mapFrame (h : Loaded P root count U s₀ M₀ s M W) (hroot : root ≠ 0) (v : ℕ)
    (hroom : (mapFrame P s root v).stackPosition ≤ count) :
    Loaded P root count U s₀ M₀ (mapFrame P s root v)
      (M.map (canon v / 4096) (s.memList s.stackPosition)) W := by
  have hbinds := h.owned.mapFrame hroot v hroom
  have hlt : s.stackPosition < count := hbinds.pos.trans_le hroom
  generalize Mmu.mapFrame P s root v = s' at *
  refine { owned := hbinds.owned, list := hbinds.list.trans h.list, pos := h.pos.trans hbinds.pos.le,
           keep := ?_, new := ?_, bytes := ?_, pool := ?_, bound := ?_ }
  · intro p f hf
    have hold := h.keep p f hf
    rcases eq_or_ne (canon v / 4096) p with rfl | hne
    · rw [PageMap.map_of_isSome (by rw [hold]; rfl)]
      exact hold
    · unfold PageMap.map
      split_ifs
      · exact hold
      · rw [Function.update_of_ne hne.symm]
        exact hold
  · intro p f hf
    rcases PageMap.map_eq_some hf with hf | ⟨rfl, rfl, hnone⟩
    · rcases h.new p f hf with hold | ⟨hnone, k, hk, hk', rfl⟩
      · exact .inl hold
      · exact .inr ⟨hnone, k, hk, hk'.trans hbinds.pos, rfl⟩
    · refine .inr ⟨?_, s.stackPosition, h.pos, hbinds.pos, by rw [h.list]⟩
      by_contra hsome
      obtain ⟨g, hg⟩ := Option.ne_none_iff_exists'.mp hsome
      exact absurd (h.keep _ g hg) (by rw [hnone]; simp)
  · intro p hp f hf o ho
    rw [hbinds.frames p hp f hf o ho]
    rcases PageMap.map_eq_some hf with hf | ⟨rfl, rfl, hnone⟩
    · exact h.bytes p hp f hf o ho
    · -- nothing was copied to a page that was not bound
      have hnothing : W (4096 * (canon v / 4096) + o) = none := by
        by_contra hne
        have hpage : (4096 * (canon v / 4096) + o) / 4096 = canon v / 4096 := by omega
        have hbound := h.bound _ (by rw [hpage]; exact hp) hne
        rw [hpage, hnone] at hbound
        exact absurd hbound (by decide)
      have hsame := h.pool _ le_rfl hlt o ho
      rw [hnothing, Option.getD_none]
      rwa [frameAt, ← h.list] at hsame
  · intro k hk hk' o ho
    have hsame := hbinds.pool k hk hk' o ho
    rw [frameAt, h.list] at hsame
    exact hsame.trans (h.pool k (hbinds.pos.le.trans hk) hk' o ho)
  · intro w hw hne
    have hold := h.bound w hw hne
    unfold PageMap.map
    split_ifs
    · exact hold
    · rcases eq_or_ne (w / 4096) (canon v / 4096) with heq | hdiff
      · rw [heq, Function.update_self]
        rfl
      · rw [Function.update_of_ne hdiff]
        exact hold

/-- The byte at an address. -/
theorem Loaded.byteAt_eq (h : Loaded P root count U s₀ M₀ s M W) {w : ℕ} (hw : Canonical w)
    (hp : w / 4096 ∈ U) : byteAt P s.mem root w =
      (M (w / 4096)).map fun f => (W w).getD (s₀.mem (f + P.hhdmOffset + w % 4096)) := by
  rw [byteAt, physical_eq h.owned.refines hw, Option.map_map]
  cases hf : M (w / 4096) with
  | none => rfl
  | some f =>
    have hbyte := h.bytes _ hp f hf (w % 4096) (Nat.mod_lt _ (by decide))
    rw [Nat.div_add_mod] at hbyte
    exact congrArg some hbyte

/-- A frame that a page of the set was bound to holds what it held. -/
theorem Owned.sameButFree_apply (h : Owned P root count s M U) {m : Memory}
    (hm : SameButFree P count s m) {p f o : ℕ} (hp : p ∈ U) (hf : M p = some f) (ho : o < 4096) :
    m (f + P.hhdmOffset + o) = s.mem (f + P.hhdmOffset + o) := by
  refine hm _ fun k hk hk' hin => ?_
  have hne := h.unused p hp f hf k hk hk'
  have hk0 := h.refines.forest.pool.aligned k hk hk'
  have hf0 := h.aligned hp hf
  unfold frameAt at hin
  omega

/-- One byte is written. -/
theorem Loaded.write (h : Loaded P root count U s₀ M₀ s M W) {w f : ℕ} (hw : w / 4096 ∈ U)
    (hf : M (w / 4096) = some f) (b : UInt8) :
    Loaded P root count U s₀ M₀
      (s.withMem (Function.update s.mem (f + P.hhdmOffset + w % 4096) b)) M
      (Function.update W w (some b)) := by
  have ho : w % 4096 < 4096 := Nat.mod_lt _ (by decide)
  have hplace : 4096 * (w / 4096) + w % 4096 = w := Nat.div_add_mod w 4096
  refine { owned := h.owned.write hw hf ho b, list := h.list, pos := h.pos, keep := h.keep,
           new := h.new, bytes := ?_, pool := ?_, bound := ?_ }
  · intro p hp g hg o hlt
    by_cases hsame : 4096 * p + o = w
    · -- the byte that was written
      obtain ⟨rfl, rfl⟩ : p = w / 4096 ∧ o = w % 4096 := by omega
      obtain rfl : f = g := Option.some.inj (hf.symm.trans hg)
      rw [hsame, Function.update_self]
      exact Function.update_self ..
    · rw [Function.update_of_ne hsame, ← h.bytes p hp g hg o hlt]
      refine Function.update_of_ne (fun heq => hsame ?_) ..
      obtain ⟨rfl, rfl⟩ := frame_byte_inj (h.owned.aligned hp hg) (h.owned.aligned hw hf) hlt ho heq
      rw [h.owned.distinct p hp _ hw _ hg hf]
      exact hplace
  · intro k hk hk' o hlt
    rw [← h.pool k hk hk' o hlt]
    refine Function.update_of_ne (fun heq => ?_) ..
    have hk0 := h.owned.refines.forest.pool.aligned k hk hk'
    have hne := h.owned.unused _ hw f hf k hk hk'
    rw [h.list] at hk0 hne
    have hbyte : s₀.memList k + P.hhdmOffset + o = f + P.hhdmOffset + w % 4096 := heq
    exact hne (frame_byte_inj hk0 (h.owned.aligned hw hf) hlt ho hbyte).1.symm
  · intro v hv hne
    rcases eq_or_ne v w with rfl | hdiff
    · rw [hf]
      rfl
    · rw [Function.update_of_ne hdiff] at hne
      exact h.bound v hv hne

/-- The addresses of a region that wraps around. -/
def Region (v n w : ℕ) : Prop := ∃ k < n, w = (v + k) % 2 ^ 64

theorem Region.cons {n w : ℕ} (h : Region (v + 1) n w) : Region v (n + 1) w := by
  obtain ⟨k, hk, rfl⟩ := h
  exact ⟨k + 1, Nat.succ_lt_succ hk, by rw [Nat.add_right_comm, Nat.add_assoc]⟩

theorem Region.head (v n : ℕ) : Region v (n + 1) (v % 2 ^ 64) :=
  ⟨0, Nat.succ_pos n, by rw [Nat.add_zero]⟩

/-- Elsewhere nothing is put. -/
theorem put_of_not_region {bs : List UInt8} {w : ℕ} (h : ¬ Region v bs.length w) :
    put W v bs w = W w := by
  induction bs generalizing v W with
  | nil => rfl
  | cons b bs ih =>
    have hne : w ≠ v % 2 ^ 64 := by
      rintro rfl
      exact h (Region.head v bs.length)
    rw [put, ih fun hw => h hw.cons, Function.update_of_ne hne]

/-- The bytes that are put, as long as they do not wrap around to the first. -/
theorem put_of_lt {bs : List UInt8} (hlen : bs.length ≤ 2 ^ 64) {k : ℕ} (hk : k < bs.length) :
    put W v bs ((v + k) % 2 ^ 64) = some bs[k] := by
  induction bs generalizing v W k with
  | nil => exact absurd hk (Nat.not_lt_zero k)
  | cons b bs ih =>
    rw [List.length_cons] at hlen hk
    rw [put]
    cases k with
    | zero =>
      have hout : ¬ Region (v + 1) bs.length ((v + 0) % 2 ^ 64) := by
        rintro ⟨j, hj, heq⟩
        omega
      rw [put_of_not_region hout, Nat.add_zero, Function.update_self]
      rfl
    | succ k =>
      have hnext := ih (W := Function.update W (v % 2 ^ 64) (some b)) (v := v + 1) (by omega)
        (Nat.lt_of_succ_lt_succ hk)
      rw [Nat.add_right_comm] at hnext
      exact hnext

/-- **Copying bytes** to pages of the set: either all of them are bound and hold the bytes
afterwards, or there is a fault. -/
theorem Loaded.copyTo (h : Loaded P root count U s₀ M₀ s M W) {bs : List UInt8}
    (hU : ∀ w, Region v bs.length w → Canonical w → w / 4096 ∈ U) :
    match copyTo P root s.mem v bs with
    | some m => (∀ w, Region v bs.length w → Canonical w ∧ (M (w / 4096)).isSome) ∧
      Loaded P root count U s₀ M₀ (s.withMem m) M (put W v bs)
    | none => ¬ ∀ w, Region v bs.length w → Canonical w ∧ (M (w / 4096)).isSome := by
  induction bs generalizing v s W with
  | nil =>
    refine ⟨fun w hw => ?_, h⟩
    obtain ⟨k, hk, -⟩ := hw
    exact absurd hk (Nat.not_lt_zero k)
  | cons b bs ih =>
    rw [Mmu.copyTo]
    have hhead := Region.head v bs.length
    by_cases hv : Canonical (v % 2 ^ 64)
    · rw [physical_eq h.owned.refines hv]
      cases hf : M (v % 2 ^ 64 / 4096) with
      | none =>
        intro hall
        have hsome := (hall _ hhead).2
        rw [hf] at hsome
        exact absurd hsome (by decide)
      | some f =>
        have hwritten := h.write (hU _ hhead hv) hf b
        have hrest := ih hwritten fun w hw => hU w hw.cons
        simp only [Option.map_some, bind, Option.bind]
        -- the first byte can be written, so the others decide
        have hregion : (∀ w, Region v (bs.length + 1) w → Canonical w ∧ (M (w / 4096)).isSome) ↔
            ∀ w, Region (v + 1) bs.length w → Canonical w ∧ (M (w / 4096)).isSome := by
          refine ⟨fun hall w hw => hall w hw.cons, fun hall w hw => ?_⟩
          obtain ⟨k, hk, rfl⟩ := hw
          cases k with
          | zero =>
            rw [Nat.add_zero, hf]
            exact ⟨hv, rfl⟩
          | succ k =>
            exact hall _ ⟨k, Nat.lt_of_succ_lt_succ hk, by rw [Nat.add_right_comm, Nat.add_assoc]⟩
        rw [List.length_cons, hregion]
        exact hrest
    · rw [physical, if_neg hv]
      exact fun hall => hv (hall _ hhead).1

end Cutesugar.Kernel.Mmu
