import Cutesugar.Kernel.Arch.FramePool
import Cutesugar.Kernel.Arch.PageMap

/-!
# When the pool runs out of frames

`KernelAllocateFrame` does not look where `mem_list` ends, so from an empty pool it hands out
what stands in the slots behind the frames: zeros. A mapping that is short of frames takes frame
0 for a table.

## Structure

- `missing`: the tables that a mapping has to make, and `mapValue_stackPosition`: it takes as
  many frames;
- `TakesTables`: the new tables are frames taken;
- `TableCall`, `TableInv`: the pool and the tables of one root while frames are handed out and
  given back by others, the pool overdrawn or not;
- `safe_along_iff`: the runs in which every mapping is safe.
-/

namespace Cutesugar.Kernel.Mmu

open Lib Lib.Memory

/-! ## What a mapping takes from the pool -/

section Missing

variable (P : Platform)

/-- The number of tables that are missing on a way. -/
def missing (m : Memory) : ℕ → List ℕ → ℕ
  | _, [] => 0
  | table, i :: is =>
    if present (entry m table i) then missing m (joinTable P (entry m table i)) is
    else is.length + 1

/-- The number of frames that `KernelMapPage` takes. -/
def framesNeeded (s : State) (root v : ℕ) : ℕ :=
  if root = 0 then 0 else missing P s.mem root (pathOf v)

end Missing

variable {P : Platform} {V : View} {count : ℕ} {s s' : State} {a t i v value pa k : ℕ}
  {p rest : List ℕ} {n : ℕ × State}

/-- One level takes a frame for the table that it makes. -/
theorem Level.missing (L : Level P V count a k s p t i value n) (hrest : ∀ j ∈ rest, j < 512) :
    n.2.stackPosition + missing P n.2.mem n.1 rest =
      s.stackPosition + missing P s.mem t (i :: rest) := by
  rcases L.outcome with ⟨hthere, rfl⟩ | ⟨-, hframe, hlink, -⟩
  · rw [Mmu.missing, if_pos hthere]
  · -- the new table is empty, so all tables below it are missing
    have hbelow : Mmu.missing P n.2.mem n.1 rest = rest.length := by
      cases rest with
      | nil => rfl
      | cons j rest =>
        rw [Mmu.missing, hframe, hlink.empty j (hrest j (by simp))]
        rfl
    rw [hbelow, hlink.pos, Mmu.missing, if_neg (by rw [hlink.absent]; decide)]
    omega

theorem nextTable_stackPosition_le
    (hroom : s.stackPosition + missing P s.mem t (i :: rest) ≤ count) :
    (nextTable P s t i value).2.stackPosition ≤ count := by
  by_cases hpres : present (entry s.mem t i) = true
  · rw [nextTable_of_present hpres]
    exact (Nat.le_add_right _ _).trans hroom
  · rw [missing, if_neg hpres] at hroom
    rw [Bool.not_eq_true] at hpres
    simp only [nextTable, hpres, kernelAllocateFrame]
    show s.stackPosition + 1 ≤ count
    omega

/-- **A mapping takes the frames that are missing**, whether the room is known from them or from
the result. -/
theorem mapValue_stackPosition (h : Forest P V count s) (ha : V.Path a [pml4Index v])
    (hroot : a ≠ 0) (hval : Flags value)
    (hroom : s.stackPosition + missing P s.mem a (pathOf v) ≤ count ∨
      (mapValue P s a v pa value).stackPosition ≤ count) :
    (mapValue P s a v pa value).stackPosition =
      s.stackPosition + missing P s.mem a (pathOf v) := by
  have hfull : V.Path a ([] ++ [pml4Index v] ++ [hpdIndex v] ++ [lpdIndex v]) :=
    View.path_pathOf ha
  -- writing the last entry takes no frame
  have hpos {b : Bool} {s₁ : State} {m : Memory} :
      (if b then s₁ else { s₁ with mem := m }).stackPosition = s₁.stackPosition := by
    split_ifs <;> rfl
  rw [mapValue_eq hroot] at hroom ⊢
  dsimp only at hroom ⊢
  rw [hpos] at hroom ⊢
  have hrest₁ : ∀ j ∈ [hpdIndex v, lpdIndex v], j < 512 := by simp [hpdIndex_lt, lpdIndex_lt]
  have hrest₂ : ∀ j ∈ [lpdIndex v], j < 512 := by simp [lpdIndex_lt]
  have hrest₃ : ∀ j ∈ ([] : List ℕ), j < 512 := by simp
  have hroom₁ := hroom.elim nextTable_stackPosition_le fun hle =>
    (le_nextTable_stackPosition value).trans ((le_nextTable_stackPosition value).trans hle)
  have L₁ := nextTable_level (k := pml4Index v) h hfull.of_append.of_append (by simp) rfl hval
    (by simp) hroom₁
  rw [pathOf, ← L₁.missing hrest₁] at hroom ⊢
  have hroom₂ := hroom.elim nextTable_stackPosition_le fun hle =>
    (le_nextTable_stackPosition value).trans hle
  have L₂ := nextTable_level (k := pml4Index v) L₁.grows.forest hfull.of_append (by simp)
    L₁.target hval (by simp) hroom₂
  rw [← L₂.missing hrest₂] at hroom ⊢
  have hroom₃ := hroom.elim nextTable_stackPosition_le fun hle => hle
  have L₃ := nextTable_level (k := pml4Index v) L₂.grows.forest hfull (by simp) L₂.target hval
    (by simp) hroom₃
  rw [← L₃.missing hrest₃]
  rfl

/-- The tables of `s'` are those of `s` and the frames taken in between. -/
def TakesTables (P : Platform) (V : View) (s s' : State) : Prop :=
  ∀ ⦃r q u⦄, V.Path r q → q.length ≤ 3 → tableAt P s'.mem r q = some u →
    tableAt P s.mem r q = some u ∨
      ∃ k, s.stackPosition ≤ k ∧ k < s'.stackPosition ∧ u = frameAt P s k

theorem Level.takes (L : Level P V count a k s p t i value n) : TakesTables P V s n.2 := by
  intro r q u hq hlq hu
  rcases L.outcome with ⟨-, rfl⟩ | ⟨hlt, -, hlink, -⟩
  · exact .inl hu
  · rcases hlink.tableAt_cases L.forest hlt L.path L.length L.source hq hlq with
      hsame | ⟨-, hnew⟩
    · exact .inl (hsame ▸ hu)
    · refine .inr ⟨s.stackPosition, le_rfl, ?_, (hnew u hu).2⟩
      rw [hlink.pos]
      exact Nat.lt_succ_self _

theorem TakesTables.trans {s₁ s₂ : State} (h : TakesTables P V s s₁)
    (hgrows : Grows P V count a k s s₁) (hpos : s₁.stackPosition ≤ s₂.stackPosition)
    (h' : TakesTables P V s₁ s₂) : TakesTables P V s s₂ := by
  intro r q u hq hlq hu
  rcases h' hq hlq hu with hold | ⟨l, hl, hl', rfl⟩
  · rcases h hq hlq hold with hold | ⟨l, hl, hl', rfl⟩
    · exact .inl hold
    · exact .inr ⟨l, hl, hl'.trans_le hpos, rfl⟩
  · refine .inr ⟨l, hgrows.pos.trans hl, hl', ?_⟩
    rw [frameAt, frameAt, hgrows.list]

/-- **A mapping makes its tables of the frames it takes.** -/
theorem mapValue_takes (h : Forest P V count s) (ha : V.Path a [pml4Index v]) (hroot : a ≠ 0)
    (hval : Flags value) (hpa : pa < 2 ^ 64)
    (hroom : (mapValue P s a v pa value).stackPosition ≤ count) :
    TakesTables P V s (mapValue P s a v pa value) ∧
      (mapValue P s a v pa value).memList = s.memList := by
  cases hlook : lookup P s.mem a v with
  | some f =>
    rw [mapValue_of_lookup hlook]
    exact ⟨fun _ _ _ _ _ hu => .inl hu, rfl⟩
  | none =>
    have hword : pa ||| value < 2 ^ 64 :=
      Nat.or_lt_two_pow hpa (hval.lt.trans (by decide))
    obtain ⟨n₁, n₂, n₃, L₁, L₂, L₃, -, hset⟩ :=
      mapValue_levels h ha hroot hval hword hroom hlook
    have hgrows := (L₁.grows.trans ha L₂.grows).trans ha L₃.grows
    have htakes := (L₁.takes.trans L₁.grows L₂.grows.pos L₂.takes).trans
      (L₁.grows.trans ha L₂.grows) L₃.grows.pos L₃.takes
    generalize mapValue P s a v pa value = s' at hset ⊢
    have hpos : s'.stackPosition = n₃.2.stackPosition := by rw [hset.eq]
    refine ⟨fun r q u hq hlq hu => ?_, ?_⟩
    · rw [hset.tableAt_eq hgrows.forest ha hq hlq] at hu
      rw [hpos]
      exact htakes hq hlq hu
    · rw [hset.eq]
      exact hgrows.list

/-! ## The pool and the tables of one root -/

/-- A frame is handed out or given back by others, or a page of the root is mapped or unmapped. -/
inductive TableCall where
  | pool (call : PoolCall)
  | page (op : Op)

def PoolRun.tableStep (P : Platform) (root : ℕ) (r : PoolRun) : TableCall → PoolRun
  | .pool c => r.step c
  | .page op => { r with state := op.step P root r.state }

/-- Others give back what they were handed out; frames are handed out without limit. -/
def PoolRun.Allowed (P : Platform) (root : ℕ) (r : PoolRun) : TableCall → Prop
  | .pool .allocate => True
  | .pool (.deallocate f) => f ∈ r.allocated
  | .page op => op.Valid P root

/-- The mapping is safe: it takes usable frames, each of them once, that are neither outstanding
nor tables, it makes its tables of these, and it binds the page or changes no translation. -/
structure SafeMap (P : Platform) (es : List MemmapEntry) (root : ℕ) (r : PoolRun) (v pa : ℕ)
    (s' : State) : Prop where
  taken : ∀ f ∈ window r.state.memList r.state.stackPosition s'.stackPosition,
    f ≠ 0 ∧ f ∈ usablePages es ∧ f ∉ r.allocated ∧
      ∀ p t, (View.single root).Path root p → p.length ≤ 3 →
        tableAt P r.state.mem root p = some t → Apart t 4096 (f + P.hhdmOffset) 4096
  once : (window r.state.memList r.state.stackPosition s'.stackPosition).Nodup
  tables : TakesTables P (View.single root) r.state s'
  outcome : lookup P s'.mem root v = some pa ∨
    ∀ w, lookup P s'.mem root w = lookup P r.state.mem root w

/-- The call is not a mapping, or it is safe. -/
def SafeCall (P : Platform) (es : List MemmapEntry) (root : ℕ) (r : PoolRun) : TableCall → Prop
  | .page (.mapPage v pa user) => SafeMap P es root r v pa (kernelMapPage P r.state root v pa user)
  | .page (.mapMmio v pa) => SafeMap P es root r v pa (kernelMapMmio P r.state v pa)
  | _ => True

/-- The slots of `mem_list` that a mapping takes its frames from hold frames. -/
def Stocked (s : State) (k : ℕ) : Prop := ∀ j < k, s.memList (s.stackPosition + j) ≠ 0

instance (s : State) (k : ℕ) : Decidable (Stocked s k) :=
  inferInstanceAs (Decidable (∀ j < k, _ ≠ 0))

/-- The call is not a mapping, or the pool has the frames that it needs. -/
def HasFrames (P : Platform) (root : ℕ) (r : PoolRun) : TableCall → Prop
  | .page (.mapPage v _ _) => Stocked r.state (framesNeeded P r.state root v)
  | .page (.mapMmio v _) => Stocked r.state (framesNeeded P r.state root v)
  | _ => True

instance (P : Platform) (root : ℕ) (r : PoolRun) :
    (c : TableCall) → Decidable (r.Allowed P root c)
  | .pool .allocate => .isTrue trivial
  | .pool (.deallocate _) => inferInstanceAs (Decidable (_ ∈ _))
  | .page op => inferInstanceAs (Decidable (op.Valid P root))

instance (P : Platform) (root : ℕ) (r : PoolRun) : (c : TableCall) → Decidable (HasFrames P root r c)
  | .pool .allocate => .isTrue trivial
  | .pool (.deallocate _) => .isTrue trivial
  | .page (.mapPage _ _ _) => inferInstanceAs (Decidable (Stocked _ _))
  | .page (.mapMmio _ _) => inferInstanceAs (Decidable (Stocked _ _))
  | .page (.unmapPage _) => .isTrue trivial

/-- The frames outstanding and the slots of the pool up to `n`. -/
def PoolRun.held (r : PoolRun) (n : ℕ) : List ℕ :=
  r.allocated ++ window r.state.memList r.state.stackPosition n

/-- What the boot loader promises of the usable regions: whole pages at distinct addresses that
share no bit with the HHDM offset. -/
structure MapFits (P : Platform) (es : List MemmapEntry) : Prop where
  paged : ∀ e ∈ es, e.Paged
  ends : ∀ e ∈ es, e.type = 0 → e.Ends
  distinct : (usablePages es).Nodup
  below : ∀ f ∈ usablePages es, f < 2 ^ 63
  disjoint : ∀ f ∈ usablePages es, f &&& P.hhdmOffset = 0

/-- The tables of the root form a tree, and a frame outside of it, 0 apart, is a usable one and
is held once. -/
structure TableInv (P : Platform) (es : List MemmapEntry) (root : ℕ) (r : PoolRun) : Prop where
  tree : Forest P (View.single root) r.state.stackPosition r.state
  usable : ∀ n, ∀ f ∈ r.held n, f ≠ 0 → f ∈ usablePages es
  once : ∀ n, ∀ f ≠ 0, (r.held n).count f ≤ 1
  apart : ∀ n, ∀ f ∈ r.held n, f ≠ 0 → ∀ p t, (View.single root).Path root p → p.length ≤ 3 →
    tableAt P r.state.mem root p = some t → Apart t 4096 (f + P.hhdmOffset) 4096

variable {es : List MemmapEntry} {root : ℕ} {r r' : PoolRun} {f : ℕ}

theorem PoolRun.held_sublist {n n' : ℕ} (h : n ≤ n') : (r.held n).Sublist (r.held n') :=
  (window_sublist h).append_left _

/-- Moving frames between the pool and others keeps the invariant. -/
theorem TableInv.of_held (h : TableInv P es root r) (hmem : r'.state.mem = r.state.mem)
    (hheld : ∀ n, ∃ n', (r'.held n).Subperm (r.held n')) : TableInv P es root r' := by
  have hsub {n f : ℕ} (hf : f ∈ r'.held n) : ∃ n', f ∈ r.held n' := by
    obtain ⟨n', hn⟩ := hheld n
    exact ⟨n', hn.subset hf⟩
  have htree := h.tree
  refine ⟨⟨⟨?_, ?_, ?_, ?_⟩, ?_, ?_, ?_⟩, ?_, ?_, ?_⟩
  · exact fun k hk hk' => absurd hk' (Nat.not_lt.mpr hk)
  · exact fun k hk hk' => absurd hk' (Nat.not_lt.mpr hk)
  · exact fun k hk hk' => absurd hk' (Nat.not_lt.mpr hk)
  · exact fun k l hk hk' => absurd hk' (Nat.not_lt.mpr hk)
  · rw [hmem]
    exact htree.noAlias
  · exact fun _ _ _ k hk hk' => absurd hk' (Nat.not_lt.mpr hk)
  · rw [hmem]
    exact htree.joined
  · intro n f hf hne
    obtain ⟨n', hf'⟩ := hsub hf
    exact h.usable n' f hf' hne
  · intro n f hne
    obtain ⟨n', hn⟩ := hheld n
    exact (hn.count_le f).trans (h.once n' f hne)
  · intro n f hf hne
    obtain ⟨n', hf'⟩ := hsub hf
    rw [hmem]
    exact h.apart n' f hf' hne

/-- **Pool step.** -/
theorem TableInv.pool (h : TableInv P es root r) {c : PoolCall}
    (hc : r.Allowed P root (.pool c)) : TableInv P es root (r.step c) := by
  cases c with
  | allocate =>
    have hmem : (r.step .allocate).state.mem = r.state.mem := rfl
    apply h.of_held hmem
    intro n
    -- the slots up to an end behind the one that is taken
    have hlt : r.state.stackPosition < max n (r.state.stackPosition + 1) :=
      (Nat.lt_succ_self _).trans_le (le_max_right _ _)
    have hperm := allocate_perm r.allocated hlt
    exact ⟨_, (PoolRun.held_sublist (le_max_left n _)).subperm.trans hperm.subperm⟩
  | deallocate f =>
    by_cases htaken : f &&& 0xFFF ≠ 0 ∨ r.state.stackPosition = 0
    · -- the frame is refused
      have hsame : (kernelDeallocateFrame r.state f).2 = r.state := by
        unfold kernelDeallocateFrame
        split_ifs with hoff hpos
        · rfl
        · rfl
        · exact absurd htaken (by tauto)
      apply h.of_held
      · show (kernelDeallocateFrame r.state f).2.mem = _
        rw [hsame]
      · intro n
        refine ⟨n, ?_⟩
        show (r.allocated.erase f ++ window (kernelDeallocateFrame r.state f).2.memList
          (kernelDeallocateFrame r.state f).2.stackPosition n).Subperm _
        rw [hsame]
        exact (List.erase_sublist.append_right _).subperm
    · simp only [not_or, not_not] at htaken
      obtain ⟨hoff, hpos⟩ := htaken
      have hdealloc : (kernelDeallocateFrame r.state f).2 = { r.state with
          memList := Function.update r.state.memList (r.state.stackPosition - 1) f
          stackPosition := r.state.stackPosition - 1 } := by
        rw [kernelDeallocateFrame, if_neg (not_not.mpr hoff), if_neg hpos]
      apply h.of_held
      · show (kernelDeallocateFrame r.state f).2.mem = _
        rw [hdealloc]
      · intro n
        have hlt : r.state.stackPosition - 1 < max n r.state.stackPosition :=
          (Nat.sub_lt (Nat.pos_of_ne_zero hpos) Nat.one_pos).trans_le (le_max_right _ _)
        have hperm := deallocate_perm hpos hlt hc
        have hsub : ((r.step (.deallocate f)).held n).Sublist
            ((r.step (.deallocate f)).held (max n r.state.stackPosition)) :=
          PoolRun.held_sublist (le_max_left ..)
        refine ⟨max n r.state.stackPosition, hsub.subperm.trans ?_⟩
        show (r.allocated.erase f ++ window (kernelDeallocateFrame r.state f).2.memList
          (kernelDeallocateFrame r.state f).2.stackPosition _).Subperm _
        rw [hdealloc]
        exact hperm.subperm

theorem mem_held_of_slot {n j : ℕ} (hj : r.state.stackPosition ≤ j) (hj' : j < n) :
    r.state.memList j ∈ r.held n :=
  List.mem_append_right _ (mem_window.mpr ⟨j, hj, hj', rfl⟩)

/-- A frame is in one slot of the pool. -/
theorem TableInv.slot_unique (h : TableInv P es root r) {j l : ℕ} (hj : r.state.stackPosition ≤ j)
    (hl : r.state.stackPosition ≤ l) (hne : r.state.memList j ≠ 0)
    (heq : r.state.memList j = r.state.memList l) : j = l := by
  by_contra hjl
  -- otherwise the frame stands in the window up to behind both slots twice
  have hpop {j l : ℕ} (hj : r.state.stackPosition ≤ j) (hlt : j < l)
      (hne : r.state.memList j ≠ 0) (heq : r.state.memList j = r.state.memList l) : False := by
    have hcount := h.once (l + 1) _ hne
    rw [PoolRun.held, ← window_append hj (by omega : j ≤ l + 1), window_pop (by omega : j < l + 1),
      List.count_append, List.count_append, List.count_cons_self] at hcount
    have hmem : r.state.memList j ∈ window r.state.memList (j + 1) (l + 1) :=
      mem_window.mpr ⟨l, hlt, Nat.lt_succ_self l, heq.symm⟩
    have hpos := List.count_pos_iff.mpr hmem
    omega
  rcases Nat.lt_or_gt_of_ne hjl with hlt | hgt
  · exact hpop hj hlt hne heq
  · exact hpop hl hgt (heq ▸ hne) heq.symm

/-- The pool up to the frames that a call needs. -/
theorem TableInv.forest (h : TableInv P es root r) (hfit : MapFits P es)
    (hstock : Stocked r.state k) :
    Forest P (View.single root) (r.state.stackPosition + k) r.state := by
  have hne : ∀ j, r.state.stackPosition ≤ j → j < r.state.stackPosition + k →
      r.state.memList j ≠ 0 := by
    intro j hj hj'
    have := hstock (j - r.state.stackPosition) (by omega)
    rwa [Nat.add_sub_cancel' hj] at this
  have husable : ∀ j, r.state.stackPosition ≤ j → j < r.state.stackPosition + k →
      r.state.memList j ∈ usablePages es :=
    fun j hj hj' => h.usable _ _ (mem_held_of_slot hj hj') (hne j hj hj')
  refine ⟨⟨?_, ?_, ?_, ?_⟩, h.tree.noAlias, ?_, h.tree.joined⟩
  · exact fun j hj hj' => mod_of_mem_usablePages hfit.paged (husable j hj hj')
  · exact fun j hj hj' => hfit.below _ (husable j hj hj')
  · exact fun j hj hj' => hfit.disjoint _ (husable j hj hj')
  · exact fun j l hj hj' hl _ heq => h.slot_unique hj hl (hne j hj hj') heq
  · intro a p t hp hlen ht j hj hj'
    obtain rfl : a = root := hp.1
    exact h.apart _ _ (mem_held_of_slot hj hj') (hne j hj hj') p t hp hlen ht

/-- What others hold, the frames taken and those left are told apart. -/
theorem TableInv.count_le (h : TableInv P es root r) {m n : ℕ} (hm : r.state.stackPosition ≤ m)
    (hn : m ≤ n) (hf : f ≠ 0) :
    r.allocated.count f + (window r.state.memList r.state.stackPosition m).count f +
      (window r.state.memList m n).count f ≤ 1 := by
  have honce := h.once n f hf
  rw [PoolRun.held, ← window_append hm hn, List.count_append, List.count_append] at honce
  omega

/-- Taking the next frames for tables keeps the invariant. -/
theorem TableInv.taken (h : TableInv P es root r) (hfit : MapFits P es)
    (htree : Forest P (View.single root) s'.stackPosition s')
    (hlist : s'.memList = r.state.memList) (hle : r.state.stackPosition ≤ s'.stackPosition)
    (hne : ∀ j, r.state.stackPosition ≤ j → j < s'.stackPosition → r.state.memList j ≠ 0)
    (htakes : TakesTables P (View.single root) r.state s') :
    TableInv P es root { r with state := s' } := by
  have hsub : ∀ n, (PoolRun.held { r with state := s' } n).Sublist
      (r.held (max n s'.stackPosition)) := by
    intro n
    have hwindow : (window r.state.memList s'.stackPosition n).Sublist
        (window r.state.memList r.state.stackPosition (max n s'.stackPosition)) := by
      rw [← window_append hle (le_max_right n s'.stackPosition)]
      exact (window_sublist (le_max_left ..)).trans (List.sublist_append_right ..)
    rw [PoolRun.held, hlist]
    exact hwindow.append_left _
  refine ⟨htree, ?_, ?_, ?_⟩
  · exact fun n f hf hf0 => h.usable _ f ((hsub n).subset hf) hf0
  · exact fun n f hf0 => ((hsub n).count_le f).trans (h.once _ f hf0)
  · intro n f hf hf0 p t hp hlen ht
    have hheld := (hsub n).subset hf
    rcases htakes hp hlen ht with hold | ⟨j, hj, hj', rfl⟩
    · exact h.apart _ f hheld hf0 p t hp hlen hold
    · -- a frame that was taken is not among those that are left
      have hdiff : r.state.memList j ≠ f := by
        rintro rfl
        have hcount := h.count_le hle (le_max_right n s'.stackPosition) hf0
        have htaken : r.state.memList j ∈
            window r.state.memList r.state.stackPosition s'.stackPosition :=
          mem_window.mpr ⟨j, hj, hj', rfl⟩
        have hpos := List.count_pos_iff.mpr htaken
        have hor : r.state.memList j ∈ r.allocated ∨
            r.state.memList j ∈ window s'.memList s'.stackPosition n := List.mem_append.mp hf
        rcases hor with hf | hf
        · have hallocated := List.count_pos_iff.mpr hf
          omega
        · rw [hlist] at hf
          have hleft := List.count_pos_iff.mpr
            ((window_sublist (le_max_left n s'.stackPosition)).subset hf)
          omega
      have hmod := mod_of_mem_usablePages hfit.paged
        (h.usable _ _ (mem_held_of_slot hj hj') (hne j hj hj'))
      have hmod' := mod_of_mem_usablePages hfit.paged (h.usable _ f hheld hf0)
      unfold Apart frameAt
      omega

/-- **Map step.** -/
theorem TableInv.map (h : TableInv P es root r) (hfit : MapFits P es) (hpa : Mappable pa)
    (hval : Flags value) (hstock : Stocked r.state (framesNeeded P r.state root v)) :
    SafeMap P es root r v pa (mapValue P r.state root v pa value) ∧
      TableInv P es root { r with state := mapValue P r.state root v pa value } := by
  rcases eq_or_ne root 0 with hzero | hroot
  · -- nothing happens without a root
    have hsame : mapValue P r.state root v pa value = r.state := by rw [mapValue, if_pos hzero]
    rw [hsame]
    refine ⟨⟨?_, ?_, fun _ _ _ _ _ hu => .inl hu, .inr fun _ => rfl⟩, h⟩
    · rw [window_of_le le_rfl]
      exact fun f hf => absurd hf List.not_mem_nil
    · rw [window_of_le le_rfl]
      exact List.nodup_nil
  · rw [framesNeeded, if_neg hroot] at hstock
    have hpath := View.single_path root v
    have hforest := h.forest hfit hstock
    have hword : pa < 2 ^ 64 := hpa.2.trans (by decide)
    have hframe : pa % 4096 = 0 := hpa.1
    have hpos : (mapValue P r.state root v pa value).stackPosition = _ :=
      mapValue_stackPosition hforest hpath hroot hval (.inl le_rfl)
    have hroom : (mapValue P r.state root v pa value).stackPosition ≤
        r.state.stackPosition + missing P r.state.mem root (pathOf v) := hpos.le
    obtain ⟨htakes, hlist⟩ := mapValue_takes hforest hpath hroot hval hword hroom
    have hcases := mapValue_cases hforest hpath hroot hval hword hroom
    rw [← hpos] at hforest
    -- the slots that are taken hold frames
    have hne : ∀ j, r.state.stackPosition ≤ j →
        j < (mapValue P r.state root v pa value).stackPosition → r.state.memList j ≠ 0 := by
      intro j hj hj'
      have hslot := hstock (j - r.state.stackPosition) (by omega)
      rwa [Nat.add_sub_cancel' hj] at hslot
    have htree : Forest P (View.single root) (mapValue P r.state root v pa value).stackPosition
        (mapValue P r.state root v pa value) := by
      rcases hcases with ⟨f, -, heq⟩ | ⟨-, s₁, pt, hgrows, hset⟩
      · rw [heq] at hforest ⊢
        exact hforest
      · rw [hpos]
        exact hset.forest hgrows.forest hpath
    -- the last entry was there, or it is written now
    have houtcome : lookup P (mapValue P r.state root v pa value).mem root v = some pa ∨
        ∀ w, lookup P (mapValue P r.state root v pa value).mem root w =
          lookup P r.state.mem root w := by
      rcases hcases with ⟨f, -, heq⟩ | ⟨-, s₁, pt, hgrows, hset⟩
      · rw [heq]
        exact .inr fun _ => rfl
      · left
        rw [hset.lookup_eq hgrows.forest hpath hpath, if_pos ⟨hset.table, rfl⟩,
          if_pos (present_lor (by omega) hval),
          land_pageMask hframe (hpa.2.trans (by decide)) hval.lt]
    clear hcases hroom
    generalize mapValue P r.state root v pa value = s' at *
    have hle : r.state.stackPosition ≤ s'.stackPosition := by omega
    refine ⟨⟨?_, ?_, htakes, houtcome⟩, h.taken hfit htree hlist hle hne htakes⟩
    · -- a frame that is taken was free
      intro f hf
      obtain ⟨j, hj, hj', rfl⟩ := mem_window.mp hf
      have hheld := mem_held_of_slot hj hj'
      refine ⟨hne j hj hj', h.usable _ _ hheld (hne j hj hj'), fun hmem => ?_,
        h.apart _ _ hheld (hne j hj hj')⟩
      have hcount := h.count_le hle le_rfl (hne j hj hj')
      have hallocated := List.count_pos_iff.mpr hmem
      have htaken := List.count_pos_iff.mpr hf
      omega
    · rw [List.nodup_iff_count_le_one]
      intro f
      by_cases hf : f ∈ window r.state.memList r.state.stackPosition s'.stackPosition
      · obtain ⟨j, hj, hj', rfl⟩ := mem_window.mp hf
        have hcount := h.count_le hle le_rfl (hne j hj hj')
        omega
      · rw [List.count_eq_zero.mpr hf]
        exact Nat.zero_le 1

/-- **Unmap step.** -/
theorem TableInv.unmap (h : TableInv P es root r) (v : ℕ) :
    TableInv P es root { r with state := (kernelUnmapPage P r.state root v).2 } := by
  rcases eq_or_ne root 0 with hzero | hroot
  · rw [kernelUnmapPage, if_pos hzero]
    exact h
  · have hpath := View.single_path root v
    rcases kernelUnmapPage_spec (P := P) r.state hroot v with
      ⟨pt, f, -, heq, htable⟩ | ⟨-, -, hstate⟩
    · rw [heq]
      have hset : SetLeaf P root v 0 r.state
          { r.state with mem := setEntry r.state.mem pt (ptIndex v) 0 } pt :=
        ⟨htable, by decide, rfl⟩
      refine ⟨hset.forest h.tree hpath, h.usable, h.once, fun n f hf hne p t hp hlen ht => ?_⟩
      rw [hset.tableAt_eq h.tree hpath hp hlen] at ht
      exact h.apart n f hf hne p t hp hlen ht
    · rw [hstate]
      exact h

/-- **Step lemma**: a call that finds its frames is safe and keeps the invariant. -/
theorem TableInv.step (h : TableInv P es root r) (hfit : MapFits P es) {c : TableCall}
    (hc : r.Allowed P root c) (hframes : HasFrames P root r c) :
    SafeCall P es root r c ∧ TableInv P es root (r.tableStep P root c) := by
  cases c with
  | pool c => exact ⟨trivial, h.pool hc⟩
  | page op =>
    cases op with
    | mapPage v pa user => exact h.map hfit hc.2 (flags_user user) hframes
    | mapMmio v pa =>
      obtain ⟨rfl, -, hpa⟩ := hc
      exact h.map hfit hpa flags_mmio hframes
    | unmapPage v => exact ⟨trivial, h.unmap v⟩

/-- **A mapping that is short of frames takes frame 0.** -/
theorem TableInv.unsafe_of_short (h : TableInv P es root r) (hfit : MapFits P es)
    (hval : Flags value) (hshort : ¬ Stocked r.state (framesNeeded P r.state root v)) :
    ¬ SafeMap P es root r v pa (mapValue P r.state root v pa value) := by
  intro hsafe
  simp only [Stocked, not_forall, not_not] at hshort
  have hroot : root ≠ 0 := by
    rintro rfl
    obtain ⟨j, hj, -⟩ := hshort
    rw [framesNeeded, if_pos rfl] at hj
    exact absurd hj (Nat.not_lt_zero j)
  -- up to the first slot without a frame the mapping goes as it should
  have hex : ∃ j, j < framesNeeded P r.state root v ∧
      r.state.memList (r.state.stackPosition + j) = 0 := by
    obtain ⟨j, hj, hzero⟩ := hshort
    exact ⟨j, hj, hzero⟩
  obtain ⟨hlt, hzero⟩ := Nat.find_spec hex
  have hstock : Stocked r.state (Nat.find hex) := by
    intro l hl hslot
    exact Nat.find_min hex hl ⟨hl.trans hlt, hslot⟩
  generalize Nat.find hex = j at hlt hzero hstock
  rw [framesNeeded, if_neg hroot] at hlt
  have htaken : r.state.stackPosition + j < (mapValue P r.state root v pa value).stackPosition := by
    by_contra hle
    have hpos : (mapValue P r.state root v pa value).stackPosition = _ :=
      mapValue_stackPosition (h.forest hfit hstock) (View.single_path root v) hroot hval
        (.inr (Nat.not_lt.mp hle))
    omega
  have hmem : r.state.memList (r.state.stackPosition + j) ∈
      window r.state.memList r.state.stackPosition
        (mapValue P r.state root v pa value).stackPosition :=
    mem_window.mpr ⟨_, Nat.le_add_right _ _, htaken, rfl⟩
  exact (hsafe.taken _ hmem).1 hzero

/-! ## Runs -/

theorem Pool.zero (P : Platform) (s : State) : Pool P 0 s where
  aligned k _ hk := absurd hk (Nat.not_lt_zero k)
  below k _ hk := absurd hk (Nat.not_lt_zero k)
  disjoint k _ hk := absurd hk (Nat.not_lt_zero k)
  distinct k _ _ hk := absurd hk (Nat.not_lt_zero k)

/-- **Start**: the usable pages are in the slots, and the tables of the root form a tree that none of
them lies in. -/
theorem TableInv.start {s : State} (hfit : MapFits P es) (hpos : s.stackPosition = 0)
    (hlist : s.memList = fill (fun _ => 0) 0 (usablePages es))
    (htree : Forest P (View.single root) 0 s)
    (hapart : ∀ p t, (View.single root).Path root p → p.length ≤ 3 →
      tableAt P s.mem root p = some t →
      ∀ f ∈ usablePages es, Apart t 4096 (f + P.hhdmOffset) 4096) : TableInv P es root ⟨s, []⟩ := by
  have hfill := window_fill (fun _ => 0) 0 (usablePages es)
  rw [Nat.zero_add, ← hlist] at hfill
  -- the slots hold the usable pages, and zeros behind them
  have hheld : ∀ n f, f ≠ 0 → (PoolRun.held ⟨s, []⟩ n).count f ≤ (usablePages es).count f := by
    intro n f hf
    rw [PoolRun.held, List.nil_append, hpos]
    rcases Nat.le_total n (usablePages es).length with hle | hle
    · exact hfill ▸ (window_sublist hle).count_le f
    · have hbehind : (window s.memList (usablePages es).length n).count f = 0 := by
        rw [List.count_eq_zero]
        intro hmem
        obtain ⟨i, hi, -, heq⟩ := mem_window.mp hmem
        rw [hlist, fill_apply_of_not_mem (by omega)] at heq
        exact hf heq.symm
      rw [← window_append (Nat.zero_le _) hle, List.count_append, hfill, hbehind, Nat.add_zero]
  have husable : ∀ n, ∀ f ∈ PoolRun.held ⟨s, []⟩ n, f ≠ 0 → f ∈ usablePages es := by
    intro n f hf hne
    have hcount := hheld n f hne
    have hpositive := List.count_pos_iff.mpr hf
    exact List.count_pos_iff.mp (by omega)
  refine ⟨?_, husable, ?_, ?_⟩
  · show Forest P (View.single root) s.stackPosition s
    rw [hpos]
    exact htree
  · intro n f hf
    exact (hheld n f hf).trans (List.nodup_iff_count_le_one.mp hfit.distinct f)
  · exact fun n f hf hne p t hp hlen ht => hapart p t hp hlen ht f (husable n f hf hne)

/-- After the initialization, for a root without entries that is no usable page. -/
theorem TableInv.boot {s₀ s : State} (hfit : MapFits P es) (hboot : s₀.stackPosition = 0)
    (hslots : ∀ i, s₀.memList i = 0) (hzero : ∀ i < 512, entry s₀.mem root i = 0)
    (hapart : ∀ f ∈ usablePages es, Apart root 4096 (f + P.hhdmOffset) 4096)
    (hinit : kernelInitializeMemStack (some es) s₀ = .ok s) : TableInv P es root ⟨s, []⟩ := by
  have hs := kernelInitializeMemStack_eq hfit.paged hfit.ends hinit
  have hmem : s.mem = s₀.mem := by rw [hs]
  have hempty : Refines P root 0 s fun _ => none :=
    Refines.empty (Pool.zero P s) (hmem ▸ hzero) fun k _ hk => absurd hk (Nat.not_lt_zero k)
  refine TableInv.start hfit (by rw [hs]; exact hboot) (by rw [hs, funext hslots]) hempty.forest ?_
  intro p t hp _ ht
  cases p with
  | nil =>
    obtain rfl := Option.some.inj ht
    exact hapart
  | cons i p =>
    have habsent : present (entry s.mem root i) = false := by
      rw [hmem, hzero i (hp.2.1 i (by simp)), present_zero]
    rw [tableAt, descend_cons, child_of_not_present habsent, Option.bind_none] at ht
    exact absurd ht (by simp)

/-- **Out of frames**: from any state of the pool and of the tables of a root, while frames are handed
out and given back in any number and pages of the root are mapped and unmapped, every mapping is
safe if and only if every mapping finds the frames it needs. -/
theorem safe_along_iff (hfit : MapFits P es) (h₀ : TableInv P es root r) {calls : List TableCall}
    (hposs : Along (PoolRun.tableStep P root) (PoolRun.Allowed P root) r calls) :
    Along (PoolRun.tableStep P root) (SafeCall P es root) r calls ↔
      Along (PoolRun.tableStep P root) (HasFrames P root) r calls := by
  symm
  apply along_iff_of_guarded hposs h₀
  · exact fun _ _ h hc hframes => (h.step hfit hc hframes).2
  · intro r c h hc
    refine ⟨fun hframes => (h.step hfit hc hframes).1, fun hsafe => ?_⟩
    by_contra hshort
    cases c with
    | pool c => exact hshort trivial
    | page op =>
      cases op with
      | mapPage v pa user => exact h.unsafe_of_short hfit (flags_user user) hshort hsafe
      | mapMmio v pa =>
        obtain ⟨rfl, -⟩ := hc
        exact h.unsafe_of_short hfit flags_mmio hshort hsafe
      | unmapPage v => exact hshort trivial

theorem smallMap_fits : MapFits bootPlatform smallMap where
  paged := by decide
  ends := by decide
  distinct := by decide
  below := by decide
  disjoint := by decide

theorem emptyPool_entry (i : ℕ) : entry emptyPool.mem bootPlatform.kernelPml4 i = 0 := by
  simp [entry, load64, load, emptyPool]

/-- Three frames: a first mapping takes them all, and one in the same tables needs none. -/
theorem safe_along_smallMap :
    ∃ s, kernelInitializeMemStack (some smallMap) emptyPool = .ok s ∧
      Along (PoolRun.tableStep bootPlatform bootPlatform.kernelPml4)
        (SafeCall bootPlatform smallMap bootPlatform.kernelPml4) ⟨s, []⟩
        [.page (.mapPage 0x400000 0x7000 1), .pool .allocate, .page (.mapPage 0x401000 0x8000 0)] := by
  refine ⟨_, rfl, (safe_along_iff smallMap_fits (TableInv.boot smallMap_fits rfl (fun _ => rfl)
    (fun i _ => emptyPool_entry i) (by decide) rfl) ?_).mpr ?_⟩
  · decide
  · decide

/-- With three frames, one of them handed out, a mapping that needs three takes frame 0. -/
theorem third_table_is_frame_zero :
    ∃ s, kernelInitializeMemStack (some smallMap) emptyPool = .ok s ∧
      ¬ Along (PoolRun.tableStep bootPlatform bootPlatform.kernelPml4)
        (SafeCall bootPlatform smallMap bootPlatform.kernelPml4) ⟨s, []⟩
        [.pool .allocate, .page (.mapPage 0x400000 0x7000 1)] ∧
      (run (PoolRun.tableStep bootPlatform bootPlatform.kernelPml4) ⟨s, []⟩
        [.pool .allocate, .page (.mapPage 0x400000 0x7000 1)]).state.stackPosition = 4 ∧
      s.memList 3 = 0 := by
  refine ⟨_, rfl, ?_, by decide, by decide⟩
  rintro ⟨-, hsafe, -⟩
  exact ((hsafe : SafeMap ..).taken 0 (by decide)).1 rfl

end Cutesugar.Kernel.Mmu
