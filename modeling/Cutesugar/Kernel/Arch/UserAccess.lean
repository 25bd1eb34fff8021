import Cutesugar.Kernel.Arch.PageMap

/-!
# Access from ring 3

The processor lets ring 3 access a page if the user bit is set in the entries of all four levels.
`KernelMapPage` writes the same flags into the last entry and into the entries of the tables it
creates on the way, and leaves those of the tables that are there.

## Structure

- `accessible`: the walk of the processor; `openWalk`: the tables that are there.
- `Level`, `mapValue_access`: what a mapping does to other pages and to its own.
- `UserMap`: the pages bound and what was asked for them.
- `UserInv`, `userExact_everywhere_iff`: the runs after which access is what was asked for.
-/

namespace Cutesugar.Kernel.Mmu

open Lib Lib.Memory

/-! ## The walk of the processor -/

/-- The user bit of an entry. -/
def userBit (e : ℕ) : Bool := e &&& 4 != 0

variable (P : Platform)

/-- Every entry on the way is present and has the user bit. -/
def userWalk (m : Memory) : ℕ → List ℕ → Bool
  | _, [] => true
  | table, i :: is =>
    present (entry m table i) && userBit (entry m table i) &&
      userWalk m (joinTable P (entry m table i)) is

/-- Ring 3 can access the page of the address. -/
def accessible (m : Memory) (root v : ℕ) : Bool := userWalk P m root (pathOf v ++ [ptIndex v])

/-- The entries on the way that are present have the user bit. -/
def openWalk (m : Memory) : ℕ → List ℕ → Bool
  | _, [] => true
  | table, i :: is =>
    !present (entry m table i) ||
      (userBit (entry m table i) && openWalk m (joinTable P (entry m table i)) is)

variable {P} {V : View} {count : ℕ} {s s' : State} {a t i v w value pa : ℕ} {p path : List ℕ}
  {m m' : Memory}

theorem userBit_lor {f : ℕ} (hf : f % 512 = 0) (e : ℕ) : userBit (f ||| e) = userBit e := by
  have hfield : f &&& 4 = 0 := by
    have hmod : f &&& 4 = f % 2 ^ 9 &&& 4 := by
      rw [← Nat.and_two_pow_sub_one_eq_mod f 9, Nat.and_assoc]
      rfl
    have hlow : f % 2 ^ 9 = 0 := hf
    rw [hmod, hlow, Nat.zero_and]
  rw [userBit, userBit, Nat.and_or_distrib_right, hfield, Nat.zero_or]

/-- The walk depends on the entries on its way. -/
theorem userWalk_congr (h : ∀ q j u, q ++ [j] <+: path → tableAt P m t q = some u →
    entry m' u j = entry m u j) : userWalk P m' t path = userWalk P m t path := by
  induction path generalizing t with
  | nil => rfl
  | cons i path ih =>
    rw [userWalk, userWalk, h [] i t (by simp) rfl]
    cases hpres : present (entry m t i) with
    | false => rfl
    | true =>
      rw [ih fun q j u hpre hu => h (i :: q) j u ?_ ?_]
      · simpa using hpre
      · rw [tableAt, descend_cons, child_of_present hpres]
        exact hu

/-- The entries on the way to a page that is translated are present. -/
theorem present_of_lookup {f : ℕ} (h : lookup P m a v = some f) {q : List ℕ} {j u : ℕ}
    (hpre : q ++ [j] <+: pathOf v ++ [ptIndex v]) (hu : tableAt P m a q = some u) :
    present (entry m u j) = true := by
  obtain ⟨pt, hpt, hleaf⟩ := Option.bind_eq_some_iff.mp h
  rcases List.prefix_concat_iff.mp hpre with heq | hpre
  · -- the last entry
    obtain ⟨rfl, hlast⟩ := List.append_inj' heq rfl
    obtain rfl := (List.cons.inj hlast).1
    obtain rfl := Option.some.inj (hpt.symm.trans hu)
    by_contra hne
    rw [leaf_of_not_present (Bool.eq_false_iff.mpr hne)] at hleaf
    exact absurd hleaf (by simp)
  · obtain ⟨rest, hrest⟩ := hpre
    rw [← hrest] at hpt
    obtain ⟨b, hb, -⟩ := exists_of_descend_append hpt
    rw [descend_snoc, show descend (child P m) a q = some u from hu, Option.bind_some] at hb
    by_contra hne
    rw [child_of_not_present (Bool.eq_false_iff.mpr hne)] at hb
    exact absurd hb (by simp)

/-! ## Mapping -/

/-- The entries that are present stay. -/
def KeepsEntries (P : Platform) (V : View) (s s' : State) : Prop :=
  ∀ ⦃r q u j⦄, V.Path r q → q.length ≤ 3 → tableAt P s.mem r q = some u → j < 512 →
    present (entry s.mem u j) = true → entry s'.mem u j = entry s.mem u j

/-- The entry of the level is present. -/
theorem Level.edge {k : ℕ} {n : ℕ × State} (L : Level P V count a k s p t i value n) :
    present (entry n.2.mem t i) = true := by
  rcases L.outcome with ⟨hthere, rfl⟩ | ⟨-, -, hlink, -⟩
  · exact hthere
  · exact hlink.edge

/-- The entry of the level leads to the table returned. -/
theorem Level.joins {k : ℕ} {n : ℕ × State} (L : Level P V count a k s p t i value n) :
    joinTable P (entry n.2.mem t i) = n.1 := by
  rcases L.outcome with ⟨-, rfl⟩ | ⟨hlt, hframe, hlink, -⟩
  · rfl
  · have hchild := hlink.child L.forest.pool hlt
    rw [child_of_present hlink.edge] at hchild
    rw [hframe]
    exact Option.some.inj hchild

/-- One level keeps the entries. -/
theorem Level.keeps {k : ℕ} {n : ℕ × State} (L : Level P V count a k s p t i value n) :
    KeepsEntries P V s n.2 := by
  intro r q u j hq hlq hu hj hpres
  rcases L.outcome with ⟨-, rfl⟩ | ⟨hlt, -, hlink, -⟩
  · rfl
  · apply hlink.entry_eq L.forest hlt L.path L.length L.source hq hlq hu hj
    rintro ⟨rfl, rfl⟩
    rw [hlink.absent] at hpres
    exact absurd hpres (by decide)

/-- What one level takes over from the tables that are there. -/
theorem Level.opens {k : ℕ} {n : ℕ × State} (L : Level P V count a k s p t i value n)
    {rest : List ℕ} (hrest : ∀ j ∈ rest, j < 512) :
    (userBit value && openWalk P s.mem t (i :: rest)) =
      (userBit (entry n.2.mem t i) && (userBit value && openWalk P n.2.mem n.1 rest)) := by
  rcases L.outcome with ⟨hthere, rfl⟩ | ⟨hlt, hframe, hlink, hentry⟩
  · rw [openWalk, hthere, Bool.not_true, Bool.false_or, Bool.and_left_comm]
  · -- below a new table nothing is there
    have hopen : openWalk P n.2.mem n.1 rest = true := by
      cases rest with
      | nil => rfl
      | cons j rest =>
        rw [openWalk, hframe, hlink.empty j (hrest j (by simp))]
        rfl
    have haligned := L.forest.pool.aligned _ le_rfl hlt
    rw [hopen, hentry, userBit_lor (by omega), openWalk, hlink.absent]
    cases userBit value <;> rfl

theorem KeepsEntries.trans {s₁ s₂ : State} {k : ℕ} (h : KeepsEntries P V s s₁)
    (hgrows : Grows P V count a k s s₁) (h' : KeepsEntries P V s₁ s₂) :
    KeepsEntries P V s s₂ := by
  intro r q u j hq hlq hu hj hpres
  have hfirst := h hq hlq hu hj hpres
  rw [h' hq hlq (hgrows.keep hq hlq hu) hj (hfirst ▸ hpres), hfirst]

/-- Writing an entry that is not present keeps those that are. -/
theorem SetLeaf.keeps {e pt : ℕ} (hset : SetLeaf P a v e s s' pt) (h : Forest P V count s)
    (ha : V.Path a [pml4Index v]) (habsent : present (entry s.mem pt (ptIndex v)) = false) :
    KeepsEntries P V s s' := by
  intro r q u j hq hlq hu hj hpres
  apply hset.entry_eq h ha hq hlq hu hj
  rintro ⟨rfl, rfl⟩
  rw [habsent] at hpres
  exact absurd hpres (by decide)

/-- **Mapping a page that is not bound** keeps the entries that are there; ring 3 can access the
page if it was asked for and the tables that were there let it through. -/
theorem mapValue_access (h : Forest P V count s) (ha : V.Path a [pml4Index v]) (hroot : a ≠ 0)
    (hval : Flags value) (hpa : Mappable pa)
    (hroom : (mapValue P s a v pa value).stackPosition ≤ count)
    (hlook : lookup P s.mem a v = none) :
    KeepsEntries P V s (mapValue P s a v pa value) ∧
      accessible P (mapValue P s a v pa value).mem a v =
        (userBit value && openWalk P s.mem a (pathOf v)) := by
  have hfull : V.Path a ([] ++ [pml4Index v] ++ [hpdIndex v] ++ [lpdIndex v]) :=
    View.path_pathOf ha
  have hframe : pa % 4096 = 0 := hpa.1
  have hword : pa ||| value < 2 ^ 64 :=
    Nat.or_lt_two_pow (hpa.2.trans (by decide)) (hval.lt.trans (by decide))
  obtain ⟨n₁, n₂, n₃, L₁, L₂, L₃, habsent, hset⟩ :=
    mapValue_levels h ha hroot hval hword hroom hlook
  generalize mapValue P s a v pa value = s' at *
  have hkeep₃ := hset.keeps ((L₁.grows.trans ha L₂.grows).trans ha L₃.grows).forest ha habsent
  have hkeep₂ := L₃.keeps.trans L₃.grows hkeep₃
  have hkeep₁ := L₂.keeps.trans L₂.grows hkeep₂
  refine ⟨L₁.keeps.trans L₁.grows hkeep₁, ?_⟩
  -- the entries on the way are those the levels left
  have hentry₁ := hkeep₁ hfull.of_append.of_append.of_append (by simp)
    (show tableAt P n₁.2.mem a [] = some a from rfl) (pml4Index_lt v) L₁.edge
  have hentry₂ := hkeep₂ hfull.of_append.of_append (by simp)
    (L₂.grows.keep hfull.of_append.of_append (by simp) L₁.target) (hpdIndex_lt v) L₂.edge
  have hentry₃ := hkeep₃ hfull.of_append (by simp)
    (L₃.grows.keep hfull.of_append (by simp) L₂.target) (lpdIndex_lt v) L₃.edge
  have hlast : entry s'.mem n₃.1 (ptIndex v) = pa ||| value := by
    rw [hset.eq]
    exact entry_setEntry_same hword
  have hpres : present (pa ||| value) = true := present_lor (by omega) hval
  have hbit : userBit (pa ||| value) = userBit value := userBit_lor (by omega) value
  have hrest₁ : ∀ j ∈ [hpdIndex v, lpdIndex v], j < 512 := by simp [hpdIndex_lt, lpdIndex_lt]
  have hrest₂ : ∀ j ∈ [lpdIndex v], j < 512 := by simp [lpdIndex_lt]
  have hrest₃ : ∀ j ∈ ([] : List ℕ), j < 512 := by simp
  rw [pathOf, L₁.opens hrest₁, L₂.opens hrest₂, L₃.opens hrest₃]
  simp only [accessible, pathOf, List.cons_append, List.nil_append, userWalk, openWalk, hentry₁,
    L₁.edge, L₁.joins, hentry₂, L₂.edge, L₂.joins, hentry₃, L₃.edge, L₃.joins, hlast, hpres, hbit,
    Bool.true_and, Bool.and_true]

/-- Access to a page that is translated depends on the entries that are kept. -/
theorem KeepsEntries.accessible {f : ℕ} (h : KeepsEntries P V s s') (ha : V.Path a [pml4Index w])
    (hlook : lookup P s.mem a w = some f) : accessible P s'.mem a w = accessible P s.mem a w := by
  have hpath := View.path_pathOf ha
  apply userWalk_congr
  intro q j u hpre hu
  have hpres := present_of_lookup hlook hpre hu
  rcases List.prefix_concat_iff.mp hpre with heq | hpre
  · obtain ⟨rfl, hlast⟩ := List.append_inj' heq rfl
    obtain rfl := (List.cons.inj hlast).1
    exact h hpath le_rfl hu (ptIndex_lt w) hpres
  · have hq := hpath.initial hpre
    have hlen := hpre.length_le
    rw [List.length_append, List.length_singleton] at hlen
    exact h hq.of_append (by have : (pathOf w).length = 3 := rfl; omega) hu hq.last_lt hpres

/-- Writing the entry of one page leaves access to all others alone. -/
theorem SetLeaf.accessible {e pt : ℕ} (hset : SetLeaf P a v e s s' pt) (h : Forest P V count s)
    (ha : V.Path a [pml4Index v]) (hw : V.Path a [pml4Index w])
    (hne : ¬ (pathOf w = pathOf v ∧ ptIndex w = ptIndex v)) :
    accessible P s'.mem a w = accessible P s.mem a w := by
  have hpath := View.path_pathOf hw
  apply userWalk_congr
  intro q j u hpre hu
  rcases List.prefix_concat_iff.mp hpre with heq | hpre
  · -- the last entry is another one: one table is at one path
    obtain ⟨rfl, hlast⟩ := List.append_inj' heq rfl
    obtain rfl := (List.cons.inj hlast).1
    apply hset.entry_eq h ha hpath le_rfl hu (ptIndex_lt w)
    rintro ⟨rfl, hidx⟩
    exact hne ⟨h.path_unique hpath le_rfl hu (View.path_pathOf ha) le_rfl hset.table, hidx⟩
  · have hq := hpath.initial hpre
    have hlen := hpre.length_le
    have hthree : (pathOf w).length = 3 := rfl
    rw [List.length_append, List.length_singleton] at hlen
    exact hset.entry_inner h ha hq.of_append (by omega) hu hq.last_lt

/-! ## What was asked for -/

/-- Which pages are bound, and whether ring 3 was to access them. -/
abbrev UserMap := ℕ → Option Bool

/-- Bind a page that is not bound. -/
def UserMap.map (b : UserMap) (page : ℕ) (user : Bool) : UserMap :=
  if (b page).isSome then b else Function.update b page (some user)

/-- What a call means for the pages bound. -/
def UserMap.step (b : UserMap) : Op → UserMap
  | .mapPage v _ user => b.map (v / 4096) (user != 0)
  | .mapMmio v _ => b.map (v / 4096) false
  | .unmapPage v => Function.update b (v / 4096) none

/-- The tables and what was asked for. -/
structure UserRun where
  state : State
  bound : UserMap

def UserRun.step (P : Platform) (root : ℕ) (u : UserRun) (op : Op) : UserRun :=
  ⟨op.step P root u.state, u.bound.step op⟩

/-- Ring 3 can access a page that is bound iff this was asked for. -/
def UserExact (P : Platform) (root : ℕ) (u : UserRun) : Prop :=
  ∀ v, Canonical v → (lookup P u.state.mem root v).isSome →
    (accessible P u.state.mem root v = true ↔ u.bound (v / 4096) = some true)

/-- A valid call that the pool has frames for. -/
def Supplied (P : Platform) (root count : ℕ) (u : UserRun) (op : Op) : Prop :=
  op.Valid P root ∧ (op.step P root u.state).stackPosition ≤ count

/-- Where a page is to be bound for ring 3, the tables on its way that are there are open to
ring 3. -/
def FindsOpen (P : Platform) (root : ℕ) (u : UserRun) : Op → Prop
  | .mapPage v _ user => user ≠ 0 → lookup P u.state.mem root v = none →
    openWalk P u.state.mem root (pathOf v) = true
  | _ => True

/-- The tables form a tree, their pages are those that were bound, and access is exact. -/
def UserInv (P : Platform) (root count : ℕ) (u : UserRun) : Prop :=
  ∃ M : PageMap, Refines P root count u.state M ∧
    (∀ page, (M page).isSome = (u.bound page).isSome) ∧ UserExact P root u

instance (P : Platform) (root count : ℕ) (u : UserRun) (op : Op) :
    Decidable (Supplied P root count u op) :=
  inferInstanceAs (Decidable (_ ∧ _))

instance (P : Platform) (root : ℕ) (u : UserRun) : (op : Op) → Decidable (FindsOpen P root u op)
  | .mapPage _ _ user => inferInstanceAs (Decidable (user ≠ 0 → _ → _))
  | .mapMmio _ _ => .isTrue trivial
  | .unmapPage _ => .isTrue trivial

variable {root : ℕ} {u : UserRun}

theorem UserMap.isSome_map {b : UserMap} {M : PageMap} (user : Bool) (pa : ℕ)
    (h : ∀ page, (M page).isSome = (b page).isSome) (page q : ℕ) :
    (M.map page pa q).isSome = (b.map page user q).isSome := by
  rw [PageMap.map, UserMap.map, h page]
  cases hb : (b page).isSome with
  | true =>
    rw [if_pos rfl, if_pos rfl]
    exact h q
  | false =>
    simp only [Bool.false_eq_true, if_false]
    by_cases hq : q = page
    · rw [hq, Function.update_self, Function.update_self]
      rfl
    · rw [Function.update_of_ne hq, Function.update_of_ne hq]
      exact h q

/-- **Map step.** -/
theorem UserInv.map (h : UserInv P root count u) (hroot : root ≠ 0) (hv : Canonical v)
    (hpa : Mappable pa) (hval : Flags value)
    (hroom : (mapValue P u.state root v pa value).stackPosition ≤ count)
    (hopen : userBit value = true → lookup P u.state.mem root v = none →
      openWalk P u.state.mem root (pathOf v) = true) :
    UserInv P root count
      ⟨mapValue P u.state root v pa value, u.bound.map (v / 4096) (userBit value)⟩ := by
  obtain ⟨M, href, hdom, hexact⟩ := h
  have hpath := View.single_path root v
  refine ⟨M.map (v / 4096) pa, href.map hroot hv hpa hval hroom,
    UserMap.isSome_map (userBit value) pa hdom (v / 4096), ?_⟩
  cases hlook : lookup P u.state.mem root v with
  | some f =>
    -- the page is bound: neither the tables nor what was asked for change
    have hbound : (u.bound (v / 4096)).isSome = true := by
      rw [← hdom, ← href.lookup v hv, hlook]
      rfl
    rw [mapValue_of_lookup hlook, UserMap.map, if_pos hbound]
    exact hexact
  | none =>
    obtain ⟨hkeeps, haccess⟩ :=
      mapValue_access href.forest hpath hroot hval hpa hroom hlook
    have hbound : (u.bound (v / 4096)).isSome = false := by
      rw [← hdom, ← href.lookup v hv, hlook]
      rfl
    have hnew := href.map hroot hv hpa hval hroom
    intro w hw hsome
    simp only [UserMap.map, hbound, Bool.false_eq_true, if_false] at hsome ⊢
    by_cases hsame : w / 4096 = v / 4096
    · -- the page itself
      obtain ⟨hways, hidx⟩ := (same_entry_iff hv hw).mpr hsame
      rw [accessible, hways, hidx, ← accessible, haccess, hsame, Function.update_self]
      cases hbit : userBit value with
      | false => simp
      | true => simp [hopen hbit hlook]
    · -- another page: it was bound before
      have hold : (lookup P u.state.mem root w).isSome := by
        rw [hnew.lookup w hw, PageMap.map, ← href.lookup v hv, hlook] at hsome
        simp only [Option.isSome_none, Bool.false_eq_true, if_false] at hsome
        rwa [Function.update_of_ne hsame, ← href.lookup w hw] at hsome
      obtain ⟨f, hf⟩ := Option.isSome_iff_exists.mp hold
      rw [hkeeps.accessible (View.single_path root w) hf, Function.update_of_ne hsame]
      exact hexact w hw hold

/-- **Unmap step.** -/
theorem UserInv.unmap (h : UserInv P root count u) (hroot : root ≠ 0) (hv : Canonical v) :
    UserInv P root count
      ⟨(kernelUnmapPage P u.state root v).2, Function.update u.bound (v / 4096) none⟩ := by
  obtain ⟨M, href, hdom, hexact⟩ := h
  obtain ⟨hnew, -⟩ := href.unmap hroot hv
  refine ⟨M.unmap (v / 4096), hnew, ?_, ?_⟩
  · intro page
    dsimp only [PageMap.unmap]
    by_cases hpage : page = v / 4096
    · rw [hpage, Function.update_self, Function.update_self]
      rfl
    · rw [Function.update_of_ne hpage, Function.update_of_ne hpage]
      exact hdom page
  · intro w hw hsome
    -- the page that is unbound is not looked at any more
    have hpage : w / 4096 ≠ v / 4096 := by
      intro heq
      rw [hnew.lookup w hw, heq, PageMap.unmap, Function.update_self] at hsome
      exact absurd hsome (by decide)
    have hold : (lookup P u.state.mem root w).isSome := by
      rw [hnew.lookup w hw, PageMap.unmap, Function.update_of_ne hpage, ← href.lookup w hw] at hsome
      exact hsome
    -- of the others no entry on the way has changed
    have haccess : accessible P (kernelUnmapPage P u.state root v).2.mem root w =
        accessible P u.state.mem root w := by
      rcases kernelUnmapPage_spec (P := P) u.state hroot v with
        ⟨pt, f, -, heq, htable⟩ | ⟨-, -, hstate⟩
      · rw [heq]
        have hset : SetLeaf P root v 0 u.state
            { u.state with mem := setEntry u.state.mem pt (ptIndex v) 0 } pt :=
          ⟨htable, by decide, rfl⟩
        exact hset.accessible href.forest (View.single_path root v) (View.single_path root w)
          fun hsame => hpage ((same_entry_iff hv hw).mp hsame)
      · rw [hstate]
    dsimp only
    rw [haccess, Function.update_of_ne hpage]
    exact hexact w hw hold

theorem userBit_user (user : UInt8) : userBit (if user ≠ 0 then 7 else 3) = (user != 0) := by
  split_ifs with h
  · rw [bne_iff_ne.mpr h]
    rfl
  · rw [not_not.mp h]
    rfl

/-- **Step lemma.** -/
theorem UserInv.step (h : UserInv P root count u) (hroot : root ≠ 0) {op : Op}
    (hop : Supplied P root count u op) (hopen : FindsOpen P root u op) :
    UserInv P root count (u.step P root op) := by
  obtain ⟨hvalid, hroom⟩ := hop
  cases op with
  | mapPage v pa user =>
    rw [UserRun.step, UserMap.step, ← userBit_user user]
    apply h.map hroot hvalid.1 hvalid.2 (flags_user user) hroom
    rw [userBit_user]
    exact fun huser hlook => hopen (bne_iff_ne.mp huser) hlook
  | mapMmio v pa =>
    obtain ⟨rfl, hv, hpa⟩ := hvalid
    exact h.map hroot hv hpa flags_mmio hroom fun hbit => absurd hbit (by decide)
  | unmapPage v => exact h.unmap hroot hvalid

/-- A call that finds a table closed binds a page that ring 3 cannot access. -/
theorem UserInv.breaks (h : UserInv P root count u) (hroot : root ≠ 0) {op : Op}
    (hop : Supplied P root count u op) (hclosed : ¬ FindsOpen P root u op) :
    ¬ UserExact P root (u.step P root op) := by
  obtain ⟨M, href, hdom, -⟩ := h
  obtain ⟨hvalid, hroom⟩ := hop
  cases op with
  | mapMmio v pa => exact absurd trivial hclosed
  | unmapPage v => exact absurd trivial hclosed
  | mapPage v pa user =>
    simp only [FindsOpen, Classical.not_imp] at hclosed
    obtain ⟨huser, hlook, hway⟩ := hclosed
    obtain ⟨hv, hpa⟩ := hvalid
    obtain ⟨-, haccess⟩ := mapValue_access href.forest (View.single_path root v) hroot
      (flags_user user) hpa hroom hlook
    have hnew := href.map hroot hv hpa (flags_user user) hroom
    have hM : M (v / 4096) = none := by rw [← href.lookup v hv, hlook]
    have hbound : (u.bound (v / 4096)).isSome = false := by rw [← hdom, hM]; rfl
    intro hexact
    have hiff := hexact v hv (by
      show (lookup P (mapValue P _ _ _ _ _).mem root v).isSome = true
      rw [hnew.lookup v hv, PageMap.map, hM]
      simp)
    have hasked : UserMap.step u.bound (.mapPage v pa user) (v / 4096) = some true := by
      simp only [UserMap.step, UserMap.map, hbound, Bool.false_eq_true, if_false,
        Function.update_self, bne_iff_ne.mpr huser]
    have hno : accessible P (u.step P root (.mapPage v pa user)).state.mem root v = false := by
      show accessible P (mapValue P _ _ _ _ _).mem root v = false
      rw [haccess, Bool.eq_false_iff.mpr hway, Bool.and_false]
    rw [hno] at hiff
    exact absurd (hiff.mpr hasked) (by decide)

/-! ## Runs -/

/-- Before the first call. -/
theorem UserInv.empty (hpool : Pool P count s) (hzero : ∀ i < 512, entry s.mem root i = 0)
    (hunused : ∀ k, s.stackPosition ≤ k → k < count → Apart root 4096 (frameAt P s k) 4096) :
    UserInv P root count ⟨s, fun _ => none⟩ := by
  have href := Refines.empty hpool hzero hunused
  refine ⟨_, href, fun _ => rfl, fun v hv hsome => ?_⟩
  rw [href.lookup v hv] at hsome
  exact absurd hsome (by decide)

/-- **User accessibility**: from a root without entries, after every call of a run the pages
that ring 3 can access are those for which this was asked, if and only if no call that binds a
page for ring 3 finds a table on its way that is closed to ring 3. -/
theorem userExact_everywhere_iff (hroot : root ≠ 0) (hpool : Pool P count s)
    (hzero : ∀ i < 512, entry s.mem root i = 0)
    (hunused : ∀ k, s.stackPosition ≤ k → k < count → Apart root 4096 (frameAt P s k) 4096)
    (ops : List Op)
    (hposs : Along (UserRun.step P root) (Supplied P root count) ⟨s, fun _ => none⟩ ops) :
    Everywhere (UserRun.step P root) (UserExact P root) ⟨s, fun _ => none⟩ ops ↔
      Along (UserRun.step P root) (FindsOpen P root) ⟨s, fun _ => none⟩ ops := by
  have h₀ := UserInv.empty hpool hzero hunused
  apply everywhere_iff_along hposs h₀
  · exact fun _ _ hinv hop hopen => hinv.step hroot hop hopen
  · exact fun _ hinv => hinv.choose_spec.2.2
  · exact fun _ _ hinv hop hclosed => hinv.breaks hroot hop hclosed

/-- A page for the kernel, then a page for ring 3 under another root entry. -/
theorem userExact_everywhere_boot :
    Everywhere (UserRun.step bootPlatform bootPlatform.kernelPml4)
      (UserExact bootPlatform bootPlatform.kernelPml4) ⟨bootState, fun _ => none⟩
      [.mapPage 0xFFFFFFFF80000000 0x7000 0, .mapPage 0x400000 0x8000 1] :=
  (userExact_everywhere_iff bootPlatform.kernelPml4_ne bootState_pool
    (fun i _ => bootState_entry i) (fun k _ => bootState_unused k) _
    (by decide)).mpr (by decide)

/-- A page for the kernel and then one for ring 3 next to it, in the same tables: the second
is bound for ring 3 and cannot be accessed. -/
theorem user_page_not_accessible :
    ¬ Everywhere (UserRun.step bootPlatform bootPlatform.kernelPml4)
      (UserExact bootPlatform bootPlatform.kernelPml4) ⟨bootState, fun _ => none⟩
      [.mapPage 0x400000 0x7000 0, .mapPage 0x401000 0x8000 1] := by
  intro h
  have hexact := h.last 0x401000 (by decide) (by decide)
  have hno : accessible bootPlatform (run (UserRun.step bootPlatform bootPlatform.kernelPml4)
      ⟨bootState, fun _ => none⟩ [.mapPage 0x400000 0x7000 0, .mapPage 0x401000 0x8000 1]).state.mem
      bootPlatform.kernelPml4 0x401000 = false := by decide
  rw [hno] at hexact
  exact absurd (hexact.mpr (by decide)) (by decide)

end Cutesugar.Kernel.Mmu
