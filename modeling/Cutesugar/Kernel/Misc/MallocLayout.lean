import Cutesugar.Kernel.Misc.MallocSafety
import Mathlib.Data.List.Perm.Subperm

/-!
# The layout of the kernel heap for requests of any size

After a `free` the bins and the free stacks of a class hold page headers as well as blocks, and
the chain of large blocks has its own headers, so the pages need a common description: every
page obtained serves one class of small blocks or one large block, and all pointers the
allocator follows stay among the pages of one class or among the large headers.

## Structure

- `Role`, `Link`, `SmallPage`, `Placed`: what the pages, links and live pointers are.
- `Layout`: the invariant, for some assignment of roles and some list of large headers.
- One lemma for each thing a small request does to memory: a change outside of the headers, new
  words in the header of a small page, a new small page.
-/

namespace Cutesugar.Kernel.Malloc

open Lib Lib.Memory

/-! ## Pages and what they serve as -/

/-- What a page is used for: blocks of a small class, or the large block of class `c` whose
header is page `i`. -/
inductive Role where
  | small (k : ℕ)
  | big (i c : ℕ)

/-- A block of class `c` can serve a request of class `c'`: it is large enough, and has at least the
pages of the request. -/
def Serves (c c' : ℕ) : Prop := c' ≤ c ∧ extraPages c' ≤ extraPages c

theorem Serves.refl (c : ℕ) : Serves c c := ⟨le_rfl, le_rfl⟩

/-- The page a pointer lies in. -/
def pageOf (p : ℕ) : ℕ := p - p % 0x1000

section Pages

variable (S : PageSupply) (role : ℕ → Role) (h : Heap) (live : List (ℕ × ℕ))

/-- A link of class `k`: null or a page of the class. -/
def Link (k a : ℕ) : Prop := a = 0 ∨ ∃ i < h.expanded, role i = .small k ∧ a = S.page i

/-- A page of class `k`. Its free stack starts with a link, or it consists of the blocks from
some block on and none of these is live. -/
structure SmallPage (k i : ℕ) : Prop where
  le : k ≤ 8
  size : pageClass h.mem (S.page i) = k
  next : Link S role h k (headerNext h.mem (S.page i))
  head : Link S role h k (headerHead h.mem (S.page i)) ∨ ∃ j, FreeFrom h.mem (S.page i) k j ∧
    ∀ x ∈ live, ∀ t, j ≤ t → t ≤ available k → x.1 ≠ blockAddr (S.page i) k t

/-- A live pointer of a small class: a block of a page of the class, or such a page itself. -/
def OnSmall (x : ℕ × ℕ) : Prop :=
  ∃ i < h.expanded, role i = .small (sizeClass x.2) ∧
    (x.1 = S.page i ∨ ∃ j ≤ available (sizeClass x.2), x.1 = blockAddr (S.page i) (sizeClass x.2) j)

/-- A live pointer of a large class: behind the header of a block that is large enough. -/
def OnBig (headers : List ℕ) (x : ℕ × ℕ) : Prop :=
  9 ≤ sizeClass x.2 ∧ ∃ i ∈ headers, ∃ c, role i = .big i c ∧ Serves c (sizeClass x.2) ∧
    x.1 = S.page i + headerBytes

/-- The header page `i` of a large block: the pages behind it belong to the block. -/
structure BigBlock (headers : List ℕ) (i c : ℕ) : Prop where
  large : 9 ≤ c
  role : ∀ j ≤ extraPages c, role (i + j) = .big i c
  obtained : i + extraPages c < h.expanded
  head : headerHead h.mem (S.page i) = S.page i + headerBytes
  -- only the first header is given its class, the others get the shifted-out size
  size : pageClass h.mem (S.page i) = if headers.head? = some i then c else 0

end Pages

/-- The requests of the large classes among the live ones. -/
def large (live : List (ℕ × ℕ)) : List (ℕ × ℕ) := live.filter fun x => 9 ≤ sizeClass x.2

/-- **The heap invariant**: every page has its role and every pointer stays with its role. -/
structure Layout (S : PageSupply) (role : ℕ → Role) (headers : List ℕ) (h : Heap)
    (live : List (ℕ × ℕ)) : Prop where
  pages : h.pages = S.page
  count : h.expanded ≤ S.count
  small : ∀ i < h.expanded, ∀ k, role i = .small k → SmallPage S role h live k i
  bins : ∀ k ≤ 8, Link S role h k (h.binHeaders k)
  big : ∀ i ∈ headers, ∃ c, BigBlock S role h headers i c
  chain : Chain (headerNext h.mem) h.firstBigBinHeader (headers.map S.page) 0
  nodup : headers.Nodup
  placed : ∀ x ∈ live, x.2 < 2 ^ 64 ∧ (OnSmall S role h x ∨ OnBig S role headers x)
  once : ((large live).map Prod.fst).Nodup
  -- a block is reused for a smaller class only when another header follows it
  alone : ∀ i c, headers = [i] → role i = .big i c → ∀ x ∈ large live, sizeClass x.2 = c

theorem Layout.start (S : PageSupply) (m : Memory) :
    Layout S (fun _ => .small 0) [] (HeapRun.start S m).heap (HeapRun.start S m).live where
  pages := rfl
  count := Nat.zero_le _
  small i hi := absurd hi (Nat.not_lt_zero i)
  bins _ _ := .inl rfl
  big _ hi := absurd hi List.not_mem_nil
  chain := rfl
  nodup := List.nodup_nil
  placed _ hx := absurd hx List.not_mem_nil
  once := List.nodup_nil
  alone _ _ h := absurd h (List.cons_ne_nil _ _).symm

/-! ## The parts of the invariant in a later heap -/

section Mono

variable {S : PageSupply} {role role' : ℕ → Role} {h h' : Heap} {live live' : List (ℕ × ℕ)}
  {headers : List ℕ} {i k c : ℕ}

theorem Link.mono {a : ℕ} (hl : Link S role h k a) (hexp : h.expanded ≤ h'.expanded)
    (hrole : ∀ i < h.expanded, role' i = role i) : Link S role' h' k a := by
  rcases hl with h0 | ⟨i, hi, hr, ha⟩
  · exact .inl h0
  · exact .inr ⟨i, hi.trans_le hexp, (hrole i hi).trans hr, ha⟩

/-- A page of a class keeps its shape as long as its header and the words of its free blocks
stay. -/
theorem SmallPage.mono (hp : SmallPage S role h live k i) (hexp : h.expanded ≤ h'.expanded)
    (hrole : ∀ i < h.expanded, role' i = role i)
    (hheader : ∀ a, S.page i ≤ a → a < S.page i + 20 → h'.mem a = h.mem a)
    (hword : ∀ j, headerHead h.mem (S.page i) = blockAddr (S.page i) k j → ∀ t, j ≤ t →
      t ≤ available k → (∀ x ∈ live, x.1 ≠ blockAddr (S.page i) k t) →
      h'.mem.load64 (blockAddr (S.page i) k t) = h.mem.load64 (blockAddr (S.page i) k t))
    (hlive : ∀ x ∈ live', x ∈ live ∨ ∀ t ≤ available k, x.1 ≠ blockAddr (S.page i) k t) :
    SmallPage S role' h' live' k i := by
  have hnext : headerNext h'.mem (S.page i) = headerNext h.mem (S.page i) :=
    load64_congr fun a ha ha' => hheader a ha (by omega)
  have hhead : headerHead h'.mem (S.page i) = headerHead h.mem (S.page i) :=
    load64_congr fun a ha ha' => hheader a (by omega) (by omega)
  refine ⟨hp.le, ?_, ?_, ?_⟩
  · exact (load_congr fun a ha ha' => hheader a (by omega) (by omega)).trans hp.size
  · rw [hnext]
    exact hp.next.mono hexp hrole
  · rw [hhead]
    rcases hp.head with hlink | ⟨j, hfree, hnot⟩
    · exact .inl (hlink.mono hexp hrole)
    · refine .inr ⟨j, hfree.congr hhead fun t ht ht' => ?_, fun x hx t ht ht' => ?_⟩
      · exact hword j hfree.head t ht ht' fun x hx => hnot x hx t ht ht'
      · rcases hlive x hx with hx | hx
        · exact hnot x hx t ht ht'
        · exact hx t ht'

theorem OnSmall.mono {x : ℕ × ℕ} (hx : OnSmall S role h x) (hexp : h.expanded ≤ h'.expanded)
    (hrole : ∀ i < h.expanded, role' i = role i) : OnSmall S role' h' x := by
  obtain ⟨i, hi, hr, haddr⟩ := hx
  exact ⟨i, hi.trans_le hexp, (hrole i hi).trans hr, haddr⟩

theorem BigBlock.lt (hb : BigBlock S role h headers i c) : i < h.expanded :=
  (Nat.le_add_right ..).trans_lt hb.obtained

theorem BigBlock.role_self (hb : BigBlock S role h headers i c) : role i = .big i c :=
  hb.role 0 (Nat.zero_le _)

/-- A large block stays as long as its header stays. -/
theorem BigBlock.mono {headers' : List ℕ} (hb : BigBlock S role h headers i c)
    (hexp : h.expanded ≤ h'.expanded) (hrole : ∀ i < h.expanded, role' i = role i)
    (hheader : ∀ a, S.page i + 8 ≤ a → a < S.page i + 20 → h'.mem a = h.mem a)
    (hfirst : headers'.head? = some i ↔ headers.head? = some i) :
    BigBlock S role' h' headers' i c where
  large := hb.large
  role j hj := (hrole _ (by have := hb.obtained; omega)).trans (hb.role j hj)
  obtained := hb.obtained.trans_le hexp
  head := (load64_congr fun a ha ha' => hheader a ha (by omega)).trans hb.head
  size := by
    have hsize : pageClass h'.mem (S.page i) = pageClass h.mem (S.page i) :=
      load_congr fun a ha ha' => hheader a (by omega) (by omega)
    rw [hsize, hb.size]
    simp only [hfirst]

theorem OnBig.mono {headers' : List ℕ} {x : ℕ × ℕ} (hx : OnBig S role headers x)
    (hsub : ∀ i ∈ headers, i ∈ headers') (hrole : ∀ i ∈ headers, role' i = role i) :
    OnBig S role' headers' x := by
  obtain ⟨hlarge, i, hi, c, hr, hc, hx⟩ := hx
  exact ⟨hlarge, i, hsub i hi, c, (hrole i hi).trans hr, hc, hx⟩

end Mono

/-! ## Reading the layout -/

section Reading

variable {S : PageSupply} {role : ℕ → Role} {headers : List ℕ} {h : Heap} {live : List (ℕ × ℕ)}

/-- A pointer of a small class lies inside a page of the class. -/
theorem OnSmall.in_page {x : ℕ × ℕ} (hl : Layout S role headers h live)
    (hx : OnSmall S role h x) :
    ∃ i < h.expanded, role i = .small (sizeClass x.2) ∧ S.page i ≤ x.1 ∧
      x.1 < S.page i + 0x1000 ∧ sizeClass x.2 ≤ 8 := by
  obtain ⟨i, hi, hr, haddr⟩ := hx
  have hle := (hl.small i hi _ hr).le
  refine ⟨i, hi, hr, ?_⟩
  rcases haddr with haddr | ⟨j, hj, haddr⟩
  · omega
  · have := block_in_page hle hj (S.page i)
    have := eight_le_blockBytes (sizeClass x.2)
    omega

/-- No page is both of a small class and of a large block. -/
theorem Layout.small_ne_header (hl : Layout S role headers h live) {i i' k : ℕ}
    (hr : role i = .small k) (hi' : i' ∈ headers) : i ≠ i' := by
  rintro rfl
  obtain ⟨c, hb⟩ := hl.big i hi'
  rw [hb.role_self] at hr
  exact Role.noConfusion hr

theorem Layout.header_lt (hl : Layout S role headers h live) {i : ℕ} (hi : i ∈ headers) :
    i < h.expanded :=
  (hl.big i hi).elim fun _ hb => hb.lt

/-- A pointer is of a small class or of a large one. -/
theorem OnSmall.not_large {x : ℕ × ℕ} (hl : Layout S role headers h live)
    (hx : OnSmall S role h x) : sizeClass x.2 ≤ 8 :=
  (hx.in_page hl).elim fun _ h => h.2.2.2.2

theorem mem_large {x : ℕ × ℕ} : x ∈ large live ↔ x ∈ live ∧ 9 ≤ sizeClass x.2 := by
  simp [large]

theorem Layout.onBig (hl : Layout S role headers h live) {x : ℕ × ℕ} (hx : x ∈ large live) :
    OnBig S role headers x := by
  obtain ⟨hmem, hlarge⟩ := mem_large.mp hx
  rcases (hl.placed x hmem).2 with hsmall | hbig
  · have := hsmall.not_large hl
    omega
  · exact hbig

theorem Layout.onSmall (hl : Layout S role headers h live) {x : ℕ × ℕ} (hx : x ∈ live)
    (hsmall : sizeClass x.2 ≤ 8) : OnSmall S role h x := by
  refine (hl.placed x hx).2.resolve_right fun hbig => ?_
  have := hbig.1
  omega

/-- The page of a pointer is the one it lies in. -/
theorem pageOf_eq {S : PageSupply} {i p : ℕ} (hi : i < S.count) (hlo : S.page i ≤ p)
    (hhi : p < S.page i + 0x1000) : pageOf p = S.page i := by
  have := S.aligned i hi
  unfold pageOf
  omega

end Reading

/-! ## Changes of the memory -/

section Changes

variable {S : PageSupply} {role : ℕ → Role} {headers : List ℕ} {h : Heap}
  {live live' : List (ℕ × ℕ)}

/-- Two pages obtained are the same page or do not meet. -/
theorem Layout.apart (hl : Layout S role headers h live) {i i' : ℕ} (hi : i < h.expanded)
    (hi' : i' < h.expanded) (hne : i ≠ i') : Apart (S.page i) 0x1000 (S.page i') 0x1000 :=
  S.apart (hi.trans_le hl.count) (hi'.trans_le hl.count) hne

/-- The chain of the large headers depends on their `next` words only. -/
theorem Layout.chain_congr (hl : Layout S role headers h live) {m : Memory}
    (hnext : ∀ i ∈ headers, ∀ a, S.page i ≤ a → a < S.page i + 8 → m a = h.mem a) :
    Chain (headerNext m) h.firstBigBinHeader (headers.map S.page) 0 := by
  refine hl.chain.congr fun p hp => ?_
  obtain ⟨i, hi, rfl⟩ := List.mem_map.mp hp
  exact load64_congr fun a ha ha' => hnext i hi a ha ha'

/-- **Frame lemma**: the layout stays where the headers and the words of the free blocks stay,
also when live pointers go. -/
theorem Layout.frame (hl : Layout S role headers h live) {m : Memory}
    (hheader : ∀ i < h.expanded, ∀ a, S.page i ≤ a → a < S.page i + 20 →
      ((∃ k, role i = .small k) ∨ i ∈ headers) → m a = h.mem a)
    (hword : ∀ i < h.expanded, ∀ k ≤ 8, role i = .small k →
      ∀ j, headerHead h.mem (S.page i) = blockAddr (S.page i) k j → ∀ t, j ≤ t → t ≤ available k →
      (∀ x ∈ live, x.1 ≠ blockAddr (S.page i) k t) →
      m.load64 (blockAddr (S.page i) k t) = h.mem.load64 (blockAddr (S.page i) k t))
    (hsub : live'.Sublist live) : Layout S role headers { h with mem := m } live' where
  pages := hl.pages
  count := hl.count
  small i hi k hr := by
    have hp := hl.small i hi k hr
    refine hp.mono le_rfl (fun _ _ => rfl) ?_ ?_ fun x hx => .inl (hsub.subset hx)
    · exact fun a ha ha' => hheader i hi a ha ha' (.inl ⟨k, hr⟩)
    · exact fun j hj t ht ht' hnot => hword i hi k hp.le hr j hj t ht ht' hnot
  bins k hk := hl.bins k hk
  big i hi := by
    obtain ⟨c, hb⟩ := hl.big i hi
    refine ⟨c, hb.mono le_rfl (fun _ _ => rfl) (fun a ha ha' => ?_) Iff.rfl⟩
    exact hheader i hb.lt a (by omega) ha' (.inr hi)
  chain := hl.chain_congr fun i hi a ha ha' =>
    hheader i (hl.header_lt hi) a ha (by omega) (.inr hi)
  nodup := hl.nodup
  placed x hx := hl.placed x (hsub.subset hx)
  once := ((hsub.filter _).map Prod.fst).nodup hl.once
  alone i c hi hr x hx := hl.alone i c hi hr x ((hsub.filter _).subset hx)

/-- **Header lemma**: a new `next` and a new `head` of page `i` of class `k`, with a new first
page of the bin of the class. The live pointers may change on the pages of the class. -/
theorem Layout.setHeader (hl : Layout S role headers h live) {m : Memory} {i k b : ℕ}
    (hi : i < h.expanded) (hr : role i = .small k)
    (hframe : ∀ a, ¬ (S.page i ≤ a ∧ a < S.page i + 16) → m a = h.mem a)
    (hnext : Link S role h k (headerNext m (S.page i)))
    (hhead : Link S role h k (headerHead m (S.page i)) ∨
      ∃ j, FreeFrom m (S.page i) k j ∧
        ∀ x ∈ live', ∀ t, j ≤ t → t ≤ available k → x.1 ≠ blockAddr (S.page i) k t)
    (hb : Link S role h k b)
    (hlive : ∀ x ∈ live', x ∈ live ∨ x.2 < 2 ^ 64 ∧ OnSmall S role h x ∧
      ∀ i' < h.expanded, i' ≠ i → ∀ k' ≤ 8, ∀ t ≤ available k',
        x.1 ≠ blockAddr (S.page i') k' t)
    (hlarge : (large live').Sublist (large live)) :
    Layout S role headers
      { h with mem := m, binHeaders := Function.update h.binHeaders k b } live' := by
  -- what changes is inside page `i`
  have hother : ∀ i' < h.expanded, i' ≠ i → ∀ a, S.page i' ≤ a → a < S.page i' + 0x1000 →
      m a = h.mem a := by
    intro i' hi' hne a ha ha'
    have := hl.apart hi' hi hne
    apply hframe
    unfold Apart at this
    omega
  have hpage := hl.small i hi k hr
  refine { pages := hl.pages, count := hl.count, small := ?_, bins := ?_, big := ?_, chain := ?_,
           nodup := hl.nodup, placed := ?_, once := ?_, alone := ?_ }
  · intro i' hi' k' hr'
    rcases eq_or_ne i' i with rfl | hne
    · obtain rfl : k' = k := by
        rw [hr] at hr'
        exact (Role.small.inj hr').symm
      refine ⟨hpage.le, ?_, hnext, hhead⟩
      exact (load_congr fun a ha ha' => hframe a (by omega)).trans hpage.size
    · have hp := hl.small i' hi' k' hr'
      refine hp.mono le_rfl (fun _ _ => rfl) ?_ ?_ ?_
      · exact fun a ha ha' => hother i' hi' hne a ha (by omega)
      · intro _ _ t _ ht _
        have := block_in_page hp.le ht (S.page i')
        have := eight_le_blockBytes k'
        exact load64_congr fun a ha ha' => hother i' hi' hne a (by omega) (by omega)
      · intro x hx
        rcases hlive x hx with hx | ⟨-, -, hx⟩
        · exact .inl hx
        · exact .inr fun t ht => hx i' hi' hne k' hp.le t ht
  · intro k' hk'
    dsimp only
    rcases eq_or_ne k' k with rfl | hne
    · rw [Function.update_self]
      exact hb
    · rw [Function.update_of_ne hne]
      exact hl.bins k' hk'
  · intro i' hi'
    obtain ⟨c, hblock⟩ := hl.big i' hi'
    refine ⟨c, hblock.mono le_rfl (fun _ _ => rfl) (fun a ha ha' => ?_) Iff.rfl⟩
    exact hother i' hblock.lt (hl.small_ne_header hr hi').symm a (by omega) (by omega)
  · refine hl.chain_congr fun i' hi' a ha ha' => ?_
    exact hother i' (hl.header_lt hi') (hl.small_ne_header hr hi').symm a ha (by omega)
  · intro x hx
    rcases hlive x hx with hx | ⟨hsize, hsmall, -⟩
    · exact hl.placed x hx
    · exact ⟨hsize, .inl hsmall⟩
  · exact (hlarge.map Prod.fst).nodup hl.once
  · exact fun i' c hheaders hrole x hx => hl.alone i' c hheaders hrole x (hlarge.subset hx)

end Changes

/-! ## Requests of the small classes -/

section Small

variable {S : PageSupply} {role : ℕ → Role} {headers : List ℕ} {h : Heap} {live : List (ℕ × ℕ)}
  {i k : ℕ}

theorem Layout.page_ne_zero (hl : Layout S role headers h live) (hi : i < h.expanded) :
    S.page i ≠ 0 :=
  S.nonnull i (hi.trans_le hl.count)

theorem Layout.page_below (hl : Layout S role headers h live) (hi : i < h.expanded) :
    S.page i + 0x1000 ≤ 2 ^ 64 :=
  S.below i (hi.trans_le hl.count)

/-- What a link of a class points to, if it is not null. -/
theorem Link.page {a : ℕ} (hlink : Link S role h k a) (ha : a ≠ 0) :
    ∃ i < h.expanded, role i = .small k ∧ a = S.page i :=
  hlink.resolve_left ha

theorem Layout.link_lt (hl : Layout S role headers h live) {a : ℕ} (hlink : Link S role h k a) :
    a < 2 ^ 64 := by
  rcases hlink with rfl | ⟨i, hi, -, rfl⟩
  · decide
  · have := hl.page_below hi
    omega

/-- **A new page of a small class.** -/
theorem Layout.expandBin (hl : Layout S role headers h live) (hk : k ≤ 8)
    (hsupply : h.expanded < S.count) :
    Layout S (Function.update role h.expanded (.small k)) headers (expandBin h k) live ∧
      (expandBin h k).binHeaders k = S.page h.expanded ∧
      FreeFrom (expandBin h k).mem (S.page h.expanded) k 0 ∧
      (expandBin h k).expanded = h.expanded + 1 := by
  have hpage : h.pages h.expanded = S.page h.expanded := by rw [hl.pages]
  have hbelow := S.below _ hsupply
  rw [← hpage] at hbelow
  obtain ⟨hframe, hfree, hnext, hsize⟩ := expandBin_spec hk hbelow (hl.link_lt (hl.bins k hk))
  have heq := expandBin_eq k hbelow
  rw [hpage] at hframe hfree hnext hsize
  have hexp : (Malloc.expandBin h k).expanded = h.expanded + 1 := by rw [heq]
  have hbins : (Malloc.expandBin h k).binHeaders =
      Function.update h.binHeaders k (S.page h.expanded) := by rw [heq, hpage]
  have hpages : (Malloc.expandBin h k).pages = h.pages := by rw [heq]
  have hfirst : (Malloc.expandBin h k).firstBigBinHeader = h.firstBigBinHeader := by rw [heq]
  generalize Malloc.expandBin h k = h' at *
  have hle : h.expanded ≤ h'.expanded := by omega
  have hrole : ∀ i < h.expanded, Function.update role h.expanded (.small k) i = role i :=
    fun i hi => Function.update_of_ne hi.ne _ _
  -- the pages obtained earlier do not meet the new one
  have hold : ∀ i < h.expanded, ∀ a, S.page i ≤ a → a < S.page i + 0x1000 →
      h'.mem a = h.mem a := by
    intro i hi a ha ha'
    have := S.apart (hi.trans hsupply) hsupply hi.ne
    apply hframe
    unfold Apart at this
    omega
  have hnew : Link S (Function.update role h.expanded (.small k)) h' k (S.page h.expanded) :=
    .inr ⟨h.expanded, by omega, Function.update_self .., rfl⟩
  refine ⟨{ pages := hpages.trans hl.pages, count := by omega, small := ?_, bins := ?_, big := ?_,
            chain := ?_, nodup := hl.nodup, placed := ?_, once := hl.once, alone := ?_ },
    by rw [hbins, Function.update_self], hfree, hexp⟩
  · intro i hi k' hr
    rw [hexp] at hi
    rcases Nat.lt_succ_iff_lt_or_eq.mp hi with hi | rfl
    · rw [hrole i hi] at hr
      have hp := hl.small i hi k' hr
      refine hp.mono hle hrole ?_ ?_ fun x hx => .inl hx
      · exact fun a ha ha' => hold i hi a ha (by omega)
      · intro _ _ t _ ht _
        have := block_in_page hp.le ht (S.page i)
        have := eight_le_blockBytes k'
        exact load64_congr fun a ha ha' => hold i hi a (by omega) (by omega)
    · rw [Function.update_self] at hr
      obtain rfl := Role.small.inj hr
      refine ⟨hk, hsize, ?_, .inr ⟨0, hfree, fun x hx t _ ht heq => ?_⟩⟩
      · rw [hnext]
        exact (hl.bins k hk).mono hle hrole
      · -- live pointers lie on the pages obtained before
        have hin := block_in_page hk ht (S.page h.expanded)
        have h8 := eight_le_blockBytes k
        rcases (hl.placed x hx).2 with hsmall | ⟨-, i, hi, -, -, -, haddr⟩
        · obtain ⟨i, hi, -, hlo, hhi, -⟩ := hsmall.in_page hl
          have := S.apart (hi.trans hsupply) hsupply hi.ne
          unfold Apart at this
          omega
        · have hlt := hl.header_lt hi
          have := S.apart (hlt.trans hsupply) hsupply hlt.ne
          unfold Apart headerBytes at *
          omega
  · intro k' hk'
    rw [hbins]
    rcases eq_or_ne k' k with rfl | hne
    · rw [Function.update_self]
      exact hnew
    · rw [Function.update_of_ne hne]
      exact (hl.bins k' hk').mono hle hrole
  · intro i hi
    obtain ⟨c, hb⟩ := hl.big i hi
    exact ⟨c, hb.mono hle hrole (fun a ha ha' => hold i hb.lt a (by omega) (by omega)) Iff.rfl⟩
  · rw [hfirst]
    exact hl.chain_congr fun i hi a ha ha' => hold i (hl.header_lt hi) a ha (by omega)
  · intro x hx
    obtain ⟨hsize, hsmall | hbig⟩ := hl.placed x hx
    · exact ⟨hsize, .inl (hsmall.mono hle hrole)⟩
    · exact ⟨hsize, .inr (hbig.mono (fun _ hi => hi) fun i hi => hrole i (hl.header_lt hi))⟩
  · intro i c hheaders hr
    have hi : i ∈ headers := hheaders ▸ List.mem_singleton_self i
    rw [hrole i (hl.header_lt hi)] at hr
    exact hl.alone i c hheaders hr

/-- A page address is no block of a page. -/
theorem Layout.page_ne_block (hl : Layout S role headers h live) (hi : i < h.expanded) {i' t : ℕ}
    (hi' : i' < h.expanded) (hk : k ≤ 8) (ht : t ≤ available k) :
    S.page i ≠ blockAddr (S.page i') k t := by
  have := block_in_page hk ht (S.page i')
  have := eight_le_blockBytes k
  have := S.aligned i (hi.trans_le hl.count)
  have := S.aligned i' (hi'.trans_le hl.count)
  omega

/-- **Taking from a page**: the pointer returned is a block of the page or a page of the class. -/
theorem Layout.pop (hl : Layout S role headers h live) {size : ℕ} (hsize : size < 2 ^ 64)
    (hclass : sizeClass size = k) (hi : i < h.expanded) (hr : role i = .small k)
    (hbin : h.binHeaders k = S.page i) (hhead : headerHead h.mem (S.page i) ≠ 0) :
    Layout S role headers (popFromStack h (S.page i)).2
      (((popFromStack h (S.page i)).1, size) :: live) := by
  subst hclass
  have hp := hl.small i hi _ hr
  have hbelow := hl.page_below hi
  have hnewHead : headerHead (h.mem.store64 (S.page i + 8)
      (h.mem.load64 (headerHead h.mem (S.page i)))) (S.page i) =
      h.mem.load64 (headerHead h.mem (S.page i)) :=
    load64_store64_same_of_lt (load64_lt _ _)
  have hnext : headerNext (h.mem.store64 (S.page i + 8)
      (h.mem.load64 (headerHead h.mem (S.page i)))) (S.page i) = headerNext h.mem (S.page i) :=
    load64_store64_of_apart (.inr le_rfl)
  have hkeep : popFromStack h (S.page i) = (headerHead h.mem (S.page i),
      { h with
        mem := h.mem.store64 (S.page i + 8) (h.mem.load64 (headerHead h.mem (S.page i)))
        binHeaders := Function.update h.binHeaders (sizeClass size) (S.page i) }) := by
    rw [← hbin, Function.update_eq_self, hbin]
    rfl
  rw [hkeep]
  have hlarge : large ((headerHead h.mem (S.page i), size) :: live) = large live := by
    have hnot : ¬ 9 ≤ sizeClass size := by have := hp.le; omega
    simp [large, hnot]
  refine hl.setHeader hi hr (fun a ha => store64_apply_of_not_mem (by omega)) ?_ ?_
    (.inr ⟨i, hi, hr, rfl⟩) ?_ (by rw [hlarge])
  · rw [hnext]
    exact hp.next
  · rw [hnewHead]
    rcases hp.head with hlink | ⟨j, hfree, hnot⟩
    · -- the free stack starts with a page: what follows is the next page of the bin
      obtain ⟨i', hi', hr', heq⟩ := hlink.page hhead
      rw [heq]
      exact .inl (hl.small i' hi' _ hr').next
    · rw [hfree.head]
      rcases hfree.pop hp.le with hrest | hzero
      · -- block `j` goes, the blocks from `j + 1` on stay
        refine .inr ⟨j + 1, hrest, fun x hx t ht ht' => ?_⟩
        rcases List.mem_cons.mp hx with rfl | hx
        · have happ := blocks_apart_of_ne (k := sizeClass size) (S.page i) (show j ≠ t by omega)
          have := eight_le_blockBytes (sizeClass size)
          unfold Apart at happ
          dsimp only
          omega
        · exact hnot x hx t (by omega) ht'
      · rw [hfree.head] at hnewHead
        exact .inl (.inl (hnewHead.symm.trans hzero))
  · intro x hx
    rcases List.mem_cons.mp hx with rfl | hx
    · refine .inr ⟨hsize, ?_⟩
      dsimp only
      rcases hp.head with hlink | ⟨j, hfree, -⟩
      · obtain ⟨i', hi', hr', heq⟩ := hlink.page hhead
        rw [heq]
        exact ⟨⟨i', hi', hr', .inl rfl⟩, fun i₂ hi₂ _ k' hk' t ht => hl.page_ne_block hi' hi₂ hk' ht⟩
      · rw [hfree.head]
        refine ⟨⟨i, hi, hr, .inr ⟨j, hfree.le, rfl⟩⟩, fun i₂ hi₂ hne k' hk' t ht => ?_⟩
        have := hl.apart hi₂ hi hne
        have := block_in_page hk' ht (S.page i₂)
        have := block_in_page hp.le hfree.le (S.page i)
        have := eight_le_blockBytes k'
        have := eight_le_blockBytes (sizeClass size)
        unfold Apart at *
        omega
    · exact .inl hx

/-- **Leaving the bin.** -/
theorem Layout.decouple (hl : Layout S role headers h live) (hi : i < h.expanded)
    (hr : role i = .small k) : Layout S role headers (mallocListDecouple h k (S.page i)) live := by
  have hp := hl.small i hi k hr
  have hhead : headerHead (h.mem.store64 (S.page i) 0) (S.page i) = headerHead h.mem (S.page i) :=
    load64_store64_of_apart (.inl le_rfl)
  refine hl.setHeader hi hr (fun a ha => store64_apply_of_not_mem (by omega)) ?_ ?_ hp.next
    (fun x hx => .inl hx) (List.Sublist.refl _)
  · exact .inl (load64_store64_same ..)
  · rw [hhead]
    refine hp.head.imp_right fun ⟨j, hfree, hnot⟩ => ⟨j, hfree.congr hhead fun t ht ht' => ?_, hnot⟩
    have := (block_in_page hp.le ht' (S.page i)).1
    exact load64_store64_of_apart (by simp only [Apart]; omega)

/-- The page a bin serves a request from. -/
theorem Layout.ready (hl : Layout S role headers h live) (hk : k ≤ 8)
    (hready : mallocNeedsExpansion h (h.binHeaders k) = false) :
    ∃ i < h.expanded, role i = .small k ∧ h.binHeaders k = S.page i ∧
      headerHead h.mem (S.page i) ≠ 0 := by
  simp only [mallocNeedsExpansion, Bool.or_eq_false_iff, beq_eq_false_iff_ne] at hready
  obtain ⟨hbin, hhead⟩ := hready
  obtain ⟨i, hi, hr, hpage⟩ := (hl.bins k hk).page hbin
  exact ⟨i, hi, hr, hpage, hpage ▸ hhead⟩

/-- A request that the bin can serve. -/
theorem Layout.mallocSmall_ready (hl : Layout S role headers h live) {size : ℕ}
    (hsize : size < 2 ^ 64) (hk : sizeClass size ≤ 8)
    (hready : mallocNeedsExpansion h (h.binHeaders (sizeClass size)) = false) :
    Layout S role headers (mallocSmall h (sizeClass size)).2
      (((mallocSmall h (sizeClass size)).1, size) :: live) := by
  obtain ⟨i, hi, hr, hpage, hhead⟩ := hl.ready hk hready
  rw [hpage] at hready
  have hpop := hl.pop hsize rfl hi hr hpage hhead
  have hexp : (popFromStack h (S.page i)).2.expanded = h.expanded := rfl
  rw [mallocSmall_of_ready hpage hready]
  generalize popFromStack h (S.page i) = r at hpop hexp ⊢
  split_ifs with hlast
  · -- that was the last block: the page leaves the bin
    exact hpop.decouple (hexp ▸ hi) hr
  · exact hpop

/-- **A request of a small class** keeps the layout. -/
theorem Layout.mallocSmall (hl : Layout S role headers h live) {size : ℕ} (hsize : size < 2 ^ 64)
    (hk : sizeClass size ≤ 8) (hsupply : (mallocSmall h (sizeClass size)).2.expanded ≤ S.count) :
    ∃ role', (∀ i < h.expanded, role' i = role i) ∧
      Layout S role' headers (mallocSmall h (sizeClass size)).2
        (((mallocSmall h (sizeClass size)).1, size) :: live) := by
  cases hneeds : mallocNeedsExpansion h (h.binHeaders (sizeClass size)) with
  | false => exact ⟨role, fun _ _ => rfl, hl.mallocSmall_ready hsize hk hneeds⟩
  | true =>
    have hlt : h.expanded < S.count := by
      rw [mallocSmall_expanded, hneeds] at hsupply
      exact hsupply
    obtain ⟨hl', hbin, hfree, -⟩ := hl.expandBin hk hlt
    have hready : mallocNeedsExpansion (Malloc.expandBin h (sizeClass size))
        ((Malloc.expandBin h (sizeClass size)).binHeaders (sizeClass size)) = false := by
      rw [hbin]
      exact hfree.not_needsExpansion (S.nonnull _ hlt)
    rw [mallocSmall_of_needs hneeds hready]
    exact ⟨_, fun i hi => Function.update_of_ne hi.ne _ _, hl'.mallocSmall_ready hsize hk hready⟩

end Small

end Cutesugar.Kernel.Malloc
