import Cutesugar.Kernel.Misc.MallocLayout

/-!
# Large blocks of the kernel heap

A request of class 9 or more is given whole pages. Its header page is found again by walking the
chain of large headers. Two slips meet there: a block that is reused stays marked free, and the
header of every block but the first is given the size 0, because the loop that computes the class
has used up the variable `size`.

The second slip keeps the walk away from all blocks but the first, so reuse is about the first
block only; and a `free` of another large block takes the path of the small classes.

## Structure

- `Reusable`, `NewBig`: the two ways a large request is served.
- `Layout.addBig`, `Layout.reuse`, `Layout.freeSmall`, `Layout.freeLarge`: the layout after the calls.
-/

namespace Cutesugar.Kernel.Malloc

open Lib Lib.Memory

/-! ## Requests of the large classes -/

/-- A request of class `c` is served from the first large block: it is free, large enough, and
not the last of the chain. -/
def Reusable (h : Heap) (c : ℕ) : Prop :=
  h.firstBigBinHeader ≠ 0 ∧ headerNext h.mem h.firstBigBinHeader ≠ 0 ∧
    headerUsed h.mem h.firstBigBinHeader = 0 ∧ (c : ℤ) ≤ headerSize h.mem h.firstBigBinHeader

instance (h : Heap) (c : ℕ) : Decidable (Reusable h c) :=
  inferInstanceAs (Decidable (_ ∧ _ ∧ _ ∧ _))

theorem sizeClass_le {size : ℕ} (h : size < 2 ^ 64) : sizeClass size ≤ 64 := by
  have := sizeClassLoop_le 64 0 (show size / 8 < 2 ^ 64 by omega)
  simpa [sizeClass] using this

theorem headerSize_eq {m : Memory} {p n : ℕ} (h : pageClass m p = n) (hn : n < 2 ^ 31) :
    headerSize m p = n := by
  have hload : m.load (p + 16) 4 = n := h
  rw [headerSize, hload, toInt, if_pos hn]

theorem initBigHeader_spec {m : Memory} {p n : ℕ} (hp : p + 0x1000 ≤ 2 ^ 64) (hn : n < 2 ^ 32) :
    (∀ a, ¬ (p ≤ a ∧ a < p + 24) → initBigHeader m p n a = m a) ∧
    headerNext (initBigHeader m p n) p = 0 ∧
    headerHead (initBigHeader m p n) p = p + headerBytes ∧
    pageClass (initBigHeader m p n) p = n ∧ headerUsed (initBigHeader m p n) p = 1 := by
  unfold initBigHeader
  refine ⟨fun a ha => ?_, ?_, ?_, ?_, ?_⟩
  · rw [store64_apply_of_not_mem (by omega), store_apply_of_not_mem (by omega),
      store_apply_of_not_mem (by omega), store64_apply_of_not_mem (by omega)]
  · exact load64_store64_same ..
  · unfold headerHead
    rw [load64_store64_of_apart (.inl le_rfl), load64_store_of_apart (by simp only [Apart]; omega),
      load64_store_of_apart (by simp only [Apart]; omega), load64_store64_same_of_lt]
    simp only [headerBytes]
    omega
  · unfold pageClass
    rw [load_store64_of_apart (by simp only [Apart]; omega),
      load_store_of_apart (by simp only [Apart]; omega), load_store_same]
    exact Nat.mod_eq_of_lt (by omega)
  · unfold headerUsed
    rw [store64_apply_of_not_mem (by omega)]
    exact (if_pos ⟨le_rfl, by omega⟩).trans (by simp)

/-- The first large block serves the request, and nothing changes. -/
theorem mallocBig_of_reusable {h : Heap} {c : ℕ} (hreuse : Reusable h c) :
    mallocBig h c = some (headerHead h.mem h.firstBigBinHeader, h) := by
  obtain ⟨hfirst, hnext, hused, hsize⟩ := hreuse
  rw [mallocBig, if_neg hfirst]
  dsimp only
  rw [walk_of_stop (by simp [hused, hsize])]
  dsimp only
  rw [if_pos hnext]

section Large

variable {S : PageSupply} {role : ℕ → Role} {headers : List ℕ} {h : Heap} {live : List (ℕ × ℕ)}
  {c size : ℕ}

theorem Layout.nodup_pages (hl : Layout S role headers h live) : (headers.map S.page).Nodup := by
  refine hl.nodup.map_on fun i hi j hj heq => ?_
  exact S.distinct i ((hl.header_lt hi).trans_le hl.count) j ((hl.header_lt hj).trans_le hl.count)
    heq

theorem Layout.length_headers_le (hl : Layout S role headers h live) :
    headers.length ≤ h.expanded := by
  have hsub : headers ⊆ List.range h.expanded :=
    fun i hi => List.mem_range.mpr (hl.header_lt hi)
  simpa using (List.subperm_of_subset hl.nodup hsub).length_le

/-- The chain starts at the page of the first header. -/
theorem Layout.first_eq (hl : Layout S role headers h live) {i : ℕ}
    (hfirst : headers.head? = some i) : h.firstBigBinHeader = S.page i := by
  obtain ⟨rest, rfl⟩ := List.head?_eq_some_iff.mp hfirst
  exact hl.chain.1

/-- The last header ends the chain, and in front of it the chain goes on. -/
theorem Layout.last_header {init : List ℕ} {l : ℕ} (hl : Layout S role (init ++ [l]) h live) :
    h.firstBigBinHeader ≠ 0 ∧
      Chain (headerNext h.mem) h.firstBigBinHeader (init.map S.page) (S.page l) ∧
      headerNext h.mem (S.page l) = 0 ∧ ∀ i ∈ init, headerNext h.mem (S.page i) ≠ 0 := by
  have hmap : (init ++ [l]).map S.page = init.map S.page ++ [S.page l] := by simp
  have hchain := hl.chain
  have hnodup := hl.nodup_pages
  have hnonnull : ∀ y ∈ (init ++ [l]).map S.page, y ≠ 0 := by
    intro y hy
    obtain ⟨i, hi, rfl⟩ := List.mem_map.mp hy
    exact hl.page_ne_zero (hl.header_lt hi)
  rw [hmap] at hchain hnodup hnonnull
  obtain ⟨hinit, hlast, hgo⟩ := hchain.before_last hnodup hnonnull
  refine ⟨?_, hinit, hlast, fun i hi => (hgo _ (List.mem_map_of_mem hi)).1⟩
  obtain ⟨i, hi⟩ : ∃ i, (init ++ [l]).head? = some i :=
    Option.isSome_iff_exists.mp (by simp)
  rw [hl.first_eq hi]
  exact hl.page_ne_zero (hl.header_lt (List.mem_of_head? hi))

/-- Where the first block cannot be reused, the walk over the headers ends at the last one. -/
theorem Layout.walk_headers {init : List ℕ} {l : ℕ} (hl : Layout S role (init ++ [l]) h live)
    (hc : 9 ≤ c) (hnew : ¬ Reusable h c) :
    walk (headerNext h.mem) (fun t => headerNext h.mem t == 0 ||
      (headerUsed h.mem t == 0 && decide ((c : ℤ) ≤ headerSize h.mem t))) h.expanded
      h.firstBigBinHeader = some (S.page l) := by
  obtain ⟨hfirst, hinit, hlast, hgo⟩ := hl.last_header
  refine walk_of_chain hinit (by simp [hlast]) (fun y hy => ?_) ?_
  · obtain ⟨i, hi, rfl⟩ := List.mem_map.mp hy
    have hnext := hgo i hi
    obtain ⟨c', hb⟩ := hl.big i (List.mem_append_left _ hi)
    simp only [Bool.or_eq_false_iff, beq_eq_false_iff_ne, Bool.and_eq_false_iff,
      decide_eq_false_iff_not]
    refine ⟨hnext, ?_⟩
    by_cases hhead : (init ++ [l]).head? = some i
    · -- the first block is in use or too small
      rw [← hl.first_eq hhead] at hnext ⊢
      by_contra hboth
      rw [not_or, not_ne_iff, not_not] at hboth
      exact hnew ⟨hfirst, hnext, hboth⟩
    · -- the size field of the others is 0
      have hzero := hb.size
      rw [if_neg hhead] at hzero
      rw [headerSize_eq hzero (by decide)]
      right
      omega
  · have := hl.length_headers_le
    simp only [List.length_append, List.length_singleton] at this
    simp only [List.length_map]
    omega

/-- What the request of a large block does to memory when it takes new pages: `next` of the last
header and the header of the new block, whose class is written for the first block only. -/
structure NewBig (S : PageSupply) (headers : List ℕ) (h : Heap) (c : ℕ) (m : Memory)
    (first : ℕ) : Prop where
  frame : ∀ i < h.expanded, ∀ a, S.page i ≤ a → a < S.page i + 0x1000 →
    (i ∉ headers ∨ S.page i + 8 ≤ a) → m a = h.mem a
  chain : Chain (headerNext m) first ((headers ++ [h.expanded]).map S.page) 0
  head : headerHead m (S.page h.expanded) = S.page h.expanded + headerBytes
  size : pageClass m (S.page h.expanded) = if headers = [] then c else 0
  used : headerUsed m (S.page h.expanded) = 1
  behind : ∀ i, h.expanded < i → i < S.count → ∀ a, S.page i ≤ a → a < S.page i + 0x1000 →
    m a = h.mem a

/-- The first large block: the header goes to the new page. -/
theorem newBig_first (hc : c < 2 ^ 31) (hlt : h.expanded < S.count) :
    NewBig S [] h c (initBigHeader h.mem (S.page h.expanded) c) (S.page h.expanded) := by
  obtain ⟨hframe, hnext, hhead, hsize, hused⟩ :=
    initBigHeader_spec (m := h.mem) (S.below _ hlt) (show c < 2 ^ 32 by omega)
  have hother : ∀ i < S.count, i ≠ h.expanded → ∀ a, S.page i ≤ a → a < S.page i + 0x1000 →
      initBigHeader h.mem (S.page h.expanded) c a = h.mem a := by
    intro i hi hne a ha ha'
    have := S.apart hi hlt hne
    apply hframe
    unfold Apart at this
    omega
  exact ⟨fun i hi a ha ha' _ => hother i (hi.trans hlt) hi.ne a ha ha', ⟨rfl, hnext⟩, hhead, hsize,
    hused, fun i hi hi' => hother i hi' hi.ne'⟩

/-- A further large block. -/
theorem Layout.newBig_append {init : List ℕ} {l : ℕ} (hl : Layout S role (init ++ [l]) h live)
    (hlt : h.expanded < S.count) :
    NewBig S (init ++ [l]) h c
      (initBigHeader (h.mem.store64 (S.page l) (S.page h.expanded)) (S.page h.expanded) 0)
      h.firstBigBinHeader := by
  have hmem : l ∈ init ++ [l] := List.mem_append_right _ (List.mem_singleton_self l)
  have hbelow := S.below _ hlt
  obtain ⟨hframe, hnext, hhead, hsize, hused⟩ :=
    initBigHeader_spec (m := h.mem.store64 (S.page l) (S.page h.expanded)) hbelow
      (show 0 < 2 ^ 32 by decide)
  have hlink : headerNext (h.mem.store64 (S.page l) (S.page h.expanded)) (S.page l) =
      S.page h.expanded := load64_store64_same_of_lt (by omega)
  have hstore : ∀ a, ¬ (S.page l ≤ a ∧ a < S.page l + 8) →
      h.mem.store64 (S.page l) (S.page h.expanded) a = h.mem a :=
    fun a ha => store64_apply_of_not_mem ha
  generalize h.mem.store64 (S.page l) (S.page h.expanded) = m₁ at *
  generalize initBigHeader m₁ (S.page h.expanded) 0 = m at *
  -- on the other pages only the `next` word of the last header changes
  have hold : ∀ i < S.count, i ≠ h.expanded → ∀ a, S.page i ≤ a → a < S.page i + 0x1000 →
      m a = m₁ a := by
    intro i hi hne a ha ha'
    have := S.apart hi hlt hne
    apply hframe
    unfold Apart at this
    omega
  have hkept : ∀ i < S.count, i ≠ h.expanded → ∀ a, S.page i ≤ a → a < S.page i + 0x1000 →
      (i ≠ l ∨ S.page i + 8 ≤ a) → m a = h.mem a := by
    intro i hi hne a ha ha' hor
    rw [hold i hi hne a ha ha']
    apply hstore
    rcases eq_or_ne i l with rfl | hil
    · have := hor.resolve_left (not_not.mpr rfl)
      omega
    · have := S.apart hi ((hl.header_lt hmem).trans hlt) hil
      unfold Apart at this
      omega
  have hlast := hl.header_lt hmem
  refine ⟨fun i hi a ha ha' hor => ?_, ?_, hhead, ?_, hused, fun i hi hi' a ha ha' => ?_⟩
  · refine hkept i (hi.trans hlt) hi.ne a ha ha' (hor.imp_left fun hnot => ?_)
    rintro rfl
    exact hnot hmem
  · have hmap : (init ++ [l] ++ [h.expanded]).map S.page =
        init.map S.page ++ [S.page l] ++ [S.page h.expanded] := by simp
    have hchain := hl.chain
    have hnodup := hl.nodup_pages
    rw [List.map_append, List.map_singleton] at hchain hnodup
    have hnotin : S.page l ∉ init.map S.page := fun hin =>
      (List.nodup_append.mp hnodup).2.2 _ hin _ (List.mem_singleton_self _) rfl
    rw [hmap, ← hnext]
    refine hchain.append_node hnotin ?_ fun y hy => ?_
    · refine Eq.trans (load64_congr fun a ha ha' => ?_) hlink
      exact hold l (hlast.trans hlt) hlast.ne a ha (by omega)
    · obtain ⟨i, hi, rfl⟩ := List.mem_map.mp hy
      have hi' := hl.header_lt (List.mem_append_left _ hi)
      refine load64_congr fun a ha ha' => ?_
      refine hkept i (hi'.trans hlt) hi'.ne a ha (by omega) (.inl ?_)
      rintro rfl
      exact hnotin hy
  · rw [if_neg (by simp)]
    exact hsize
  · refine hkept i hi' hi.ne' a ha ha' (.inl ?_)
    rintro rfl
    exact absurd hlast (Nat.not_lt.mpr hi.le)

/-- **A large request that reuses nothing** takes new pages behind the last large block. -/
theorem Layout.mallocBig_new (hl : Layout S role headers h live) (hc : 9 ≤ c) (hc' : c < 2 ^ 31)
    (hlt : h.expanded < S.count) (hnew : ¬ Reusable h c) :
    ∃ m first, NewBig S headers h c m first ∧
      mallocBig h c = some (S.page h.expanded + headerBytes,
        { h with
          mem := m
          firstBigBinHeader := first
          expanded := h.expanded + 1 + extraPages c }) := by
  rcases List.eq_nil_or_concat' headers with rfl | ⟨init, l, rfl⟩
  · have hfirst : h.firstBigBinHeader = 0 := hl.chain
    have hbig := newBig_first hc' hlt
    refine ⟨_, _, hbig, ?_⟩
    rw [mallocBig, if_pos hfirst]
    simp only [kernelExpandHeap, hl.pages, hbig.head, expandMore]
  · obtain ⟨hfirst, -, hlast, -⟩ := hl.last_header
    have hbig := hl.newBig_append (c := c) hlt
    refine ⟨_, _, hbig, ?_⟩
    rw [mallocBig, if_neg hfirst]
    dsimp only
    rw [hl.walk_headers hc hnew]
    dsimp only
    rw [if_neg (not_not.mpr hlast)]
    simp only [kernelExpandHeap, hl.pages, hbig.head, expandMore]

theorem large_cons_of_large {p : ℕ} (hc : 9 ≤ sizeClass size) :
    large ((p, size) :: live) = (p, size) :: large live :=
  List.filter_cons_of_pos (by simpa using hc)

/-- **A new large block in the layout.** -/
theorem Layout.addBig (hl : Layout S role headers h live) {m : Memory} {first : ℕ}
    (hsize : size < 2 ^ 64) (hc : 9 ≤ sizeClass size)
    (hsupply : h.expanded + extraPages (sizeClass size) < S.count)
    (hnew : NewBig S headers h (sizeClass size) m first) :
    Layout S (fun i => if h.expanded ≤ i then .big h.expanded (sizeClass size) else role i)
      (headers ++ [h.expanded])
      { h with
        mem := m
        firstBigBinHeader := first
        expanded := h.expanded + 1 + extraPages (sizeClass size) }
      ((S.page h.expanded + headerBytes, size) :: live) := by
  have hrole : ∀ i < h.expanded,
      (if h.expanded ≤ i then Role.big h.expanded (sizeClass size) else role i) = role i :=
    fun i hi => if_neg (Nat.not_le.mpr hi)
  have hle : h.expanded ≤ h.expanded + 1 + extraPages (sizeClass size) := by omega
  have hhead : ∀ i ∈ headers, ((headers ++ [h.expanded]).head? = some i ↔
      headers.head? = some i) := by
    intro i hi
    cases headers with
    | nil => exact absurd hi List.not_mem_nil
    | cons j rest => exact Iff.rfl
  refine { pages := hl.pages, count := by dsimp only; omega, small := ?_, bins := ?_, big := ?_,
           chain := hnew.chain, nodup := ?_, placed := ?_, once := ?_, alone := ?_ }
  · -- a page of small blocks is an older one, and changes at most in the header of the last block
    intro i hi k hr
    have hlt : i < h.expanded := by
      by_contra hnot
      rw [if_pos (Nat.not_lt.mp hnot)] at hr
      exact Role.noConfusion hr
    rw [hrole i hlt] at hr
    have hp := hl.small i hlt k hr
    have hnot : i ∉ headers := fun hmem => hl.small_ne_header hr hmem rfl
    refine hp.mono hle hrole ?_ ?_ ?_
    · exact fun a ha ha' => hnew.frame i hlt a ha (by omega) (.inl hnot)
    · intro _ _ t _ ht _
      have := block_in_page hp.le ht (S.page i)
      have := eight_le_blockBytes k
      exact load64_congr fun a ha ha' => hnew.frame i hlt a (by omega) (by omega) (.inl hnot)
    · intro x hx
      rcases List.mem_cons.mp hx with rfl | hx
      · -- the new block begins on a new page
        refine .inr fun t ht => ?_
        have := block_in_page hp.le ht (S.page i)
        have := eight_le_blockBytes k
        have := S.apart (show i < S.count by omega) (show h.expanded < S.count by omega) hlt.ne
        simp only [Apart, headerBytes, ne_eq] at *
        omega
      · exact .inl hx
  · -- the bins have older pages
    exact fun k hk => (hl.bins k hk).mono hle hrole
  · -- the headers: those that were there, and the new one
    intro i hi
    rcases List.mem_append.mp hi with hi | hi
    · obtain ⟨c, hb⟩ := hl.big i hi
      refine ⟨c, hb.mono hle hrole (fun a ha ha' => ?_) (hhead i hi)⟩
      exact hnew.frame i hb.lt a (by omega) (by omega) (.inr ha)
    · obtain rfl := List.mem_singleton.mp hi
      refine ⟨sizeClass size, hc, fun j _ => if_pos (Nat.le_add_right ..), ?_, hnew.head, ?_⟩
      · dsimp only
        omega
      · refine hnew.size.trans ?_
        cases headers with
        | nil => simp
        | cons j rest =>
          have hne : j ≠ h.expanded := (hl.header_lt (List.mem_cons_self ..)).ne
          simp [hne]
  · -- the list of headers
    refine List.nodup_append.mpr ⟨hl.nodup, List.nodup_singleton _, fun i hi j hj => ?_⟩
    obtain rfl := List.mem_singleton.mp hj
    exact (hl.header_lt hi).ne
  · intro x hx
    rcases List.mem_cons.mp hx with rfl | hx
    · refine ⟨hsize, .inr ⟨hc, h.expanded, ?_, sizeClass size, if_pos le_rfl, .refl _, rfl⟩⟩
      exact List.mem_append_right _ (List.mem_singleton_self _)
    · obtain ⟨hsize', hsmall | hbig⟩ := hl.placed x hx
      · exact ⟨hsize', .inl (hsmall.mono hle hrole)⟩
      · refine ⟨hsize', .inr (hbig.mono (fun i hi => List.mem_append_left _ hi) ?_)⟩
        exact fun i hi => hrole i (hl.header_lt hi)
  · -- no large block was on the new page
    rw [large_cons_of_large hc]
    refine List.nodup_cons.mpr ⟨fun hmem => ?_, hl.once⟩
    obtain ⟨x, hx, heq⟩ := List.mem_map.mp hmem
    obtain ⟨-, i, hi, c, -, -, haddr⟩ := hl.onBig hx
    have hlt := hl.header_lt hi
    have hpage : S.page i = S.page h.expanded := by
      dsimp only at heq
      omega
    exact hlt.ne (S.distinct i (by omega) h.expanded (by omega) hpage)
  · -- the only header is the new one
    intro i c hheaders hr x hx
    obtain ⟨rfl, rfl⟩ : headers = [] ∧ i = h.expanded := by
      cases headers with
      | nil => exact ⟨rfl, (List.cons.inj hheaders).1.symm⟩
      | cons j rest => exact absurd (congrArg List.length hheaders) (by simp)
    rw [if_pos le_rfl] at hr
    obtain ⟨-, rfl⟩ := Role.big.inj hr
    rw [large_cons_of_large hc] at hx
    rcases List.mem_cons.mp hx with rfl | hx
    · rfl
    · obtain ⟨-, j, hj, -⟩ := hl.onBig hx
      exact absurd hj List.not_mem_nil

/-- **Reuse of the first block** by a request that needs no more pages, while no live request is at
its head. -/
theorem Layout.reuse (hl : Layout S role headers h live) (hsize : size < 2 ^ 64)
    (hc : 9 ≤ sizeClass size) (hreuse : Reusable h (sizeClass size))
    (hserves : ∀ i ∈ headers, ∀ c, role i = .big i c → sizeClass size ≤ c →
      Serves c (sizeClass size))
    (hfree : ∀ x ∈ large live, x.1 ≠ headerHead h.mem h.firstBigBinHeader) :
    Layout S role headers h ((headerHead h.mem h.firstBigBinHeader, size) :: live) := by
  obtain ⟨hfirst, hnext, -, hclass⟩ := hreuse
  obtain ⟨i, rest, rfl⟩ : ∃ i rest, headers = i :: rest := by
    cases headers with
    | nil => exact absurd hl.chain hfirst
    | cons i rest => exact ⟨i, rest, rfl⟩
  obtain ⟨c, hb⟩ := hl.big i (List.mem_cons_self ..)
  have hpage := hl.first_eq (i := i) rfl
  rw [hpage] at hnext hclass hfree ⊢
  rw [hb.head] at hfree ⊢
  have hle : sizeClass size ≤ c := by
    have hload : h.mem.load (S.page i + 16) 4 = c := hb.size.trans (if_pos rfl)
    rw [headerSize, hload, toInt] at hclass
    split_ifs at hclass <;> omega
  refine { hl with small := ?_, placed := ?_, once := ?_, alone := ?_ }
  · intro i' hi' k hr
    have hp := hl.small i' hi' k hr
    refine hp.mono le_rfl (fun _ _ => rfl) (fun _ _ _ => rfl) (fun _ _ _ _ _ _ => rfl)
      fun x hx => ?_
    rcases List.mem_cons.mp hx with rfl | hx
    · refine .inr fun t ht => ?_
      have hne := hl.small_ne_header hr (List.mem_cons_self ..)
      have := block_in_page hp.le ht (S.page i')
      have := eight_le_blockBytes k
      have := hl.apart hi' hb.lt hne
      simp only [Apart, headerBytes, ne_eq] at *
      omega
    · exact .inl hx
  · intro x hx
    rcases List.mem_cons.mp hx with rfl | hx
    · exact ⟨hsize, .inr ⟨hc, i, List.mem_cons_self .., c, hb.role_self,
        hserves i (List.mem_cons_self ..) c hb.role_self hle, rfl⟩⟩
    · exact hl.placed x hx
  · rw [large_cons_of_large hc]
    refine List.nodup_cons.mpr ⟨fun hmem => ?_, hl.once⟩
    obtain ⟨x, hx, heq⟩ := List.mem_map.mp hmem
    exact hfree x hx heq
  · intro i' c' hheaders
    -- the only block would be the last one, which is never reused
    obtain ⟨rfl, rfl⟩ := List.cons.inj hheaders
    exact absurd hl.chain.2 hnext

end Large

/-! ## Giving blocks back -/

section Free

variable {S : PageSupply} {role : ℕ → Role} {headers : List ℕ} {h : Heap}
  {live live' : List (ℕ × ℕ)} {x : ℕ × ℕ}

/-- `free` of a page with a large class in its header clears the `used` byte. -/
theorem free_large {page p : ℕ} (haligned : page % 0x1000 = 0) (hbelow : page + 0x1000 ≤ 2 ^ 64)
    (hlo : page ≤ p) (hhi : p < page + 0x1000) (hsize : 9 ≤ headerSize h.mem page) :
    free h p = { h with mem := h.mem.store (page + 20) 1 0 } := by
  simp only [free, free_mask haligned hbelow hlo hhi, hsize, if_true]

/-- **A small block goes back** to its page, which becomes the first of its class. -/
theorem Layout.freeSmall (hl : Layout S role headers h live) (hx : OnSmall S role h x)
    (hsub : live'.Sublist live) :
    Layout S role headers (free h x.1) live' ∧
      (free h x.1).binHeaders = Function.update h.binHeaders (sizeClass x.2) (pageOf x.1) := by
  obtain ⟨i, hi, hr, hlo, hhi, hk⟩ := hx.in_page hl
  have hiS := hi.trans_le hl.count
  have hp := hl.small i hi _ hr
  obtain ⟨hframe, hhead, hnext, hbins, hpages, hexp⟩ := free_spec hk (S.aligned i hiS)
    (S.nonnull i hiS) (S.below i hiS) hlo hhi hp.size
  have hfirst : (free h x.1).firstBigBinHeader = h.firstBigBinHeader := by
    simp only [free]
    split_ifs <;> rfl
  have hmod : h.binHeaders (sizeClass x.2) % 2 ^ 64 = h.binHeaders (sizeClass x.2) :=
    Nat.mod_eq_of_lt (hl.link_lt (hl.bins _ hk))
  have heq : free h x.1 = { h with
      mem := (free h x.1).mem
      binHeaders := Function.update h.binHeaders (sizeClass x.2) (S.page i) } := by
    rw [← hbins, ← hpages, ← hexp, ← hfirst]
  refine ⟨?_, by rw [hbins, pageOf_eq hiS hlo hhi]⟩
  rw [heq]
  have hself : Link S role h (sizeClass x.2) (S.page i) := .inr ⟨i, hi, hr, rfl⟩
  refine hl.setHeader hi hr hframe ?_ ?_ hself (fun y hy => .inl (hsub.subset hy)) (hsub.filter _)
  · rw [hnext, hmod]
    exact hl.bins _ hk
  · rw [hhead]
    exact .inl hself

/-- **A large block goes back**, if its header has a large class. -/
theorem Layout.freeLarge (hl : Layout S role headers h live) (hx : OnBig S role headers x)
    (hsize : 9 ≤ headerSize h.mem (pageOf x.1)) (hsub : live'.Sublist live) :
    Layout S role headers (free h x.1) live' ∧
      free h x.1 = { h with mem := h.mem.store (pageOf x.1 + 20) 1 0 } := by
  obtain ⟨-, i, hi, c, hr, -, haddr⟩ := hx
  have hlt := hl.header_lt hi
  have hiS := hlt.trans_le hl.count
  have hlo : S.page i ≤ x.1 := haddr ▸ Nat.le_add_right ..
  have hhi : x.1 < S.page i + 0x1000 := by rw [haddr, headerBytes]; omega
  rw [pageOf_eq hiS hlo hhi] at hsize ⊢
  have hfree := free_large (S.aligned i hiS) (S.below i hiS) hlo hhi hsize
  refine ⟨?_, hfree⟩
  rw [hfree]
  -- the byte is in the header of page `i`, behind the size
  have hframe : ∀ i' < h.expanded, ∀ a, S.page i' ≤ a → a < S.page i' + 0x1000 →
      (i' ≠ i ∨ a < S.page i' + 20) → h.mem.store (S.page i + 20) 1 0 a = h.mem a := by
    intro i' hi' a ha ha' hor
    apply store_apply_of_not_mem
    rcases eq_or_ne i' i with rfl | hne
    · have := hor.resolve_left (not_not.mpr rfl)
      omega
    · have := hl.apart hi' hlt hne
      unfold Apart at this
      omega
  refine hl.frame (fun i' hi' a ha ha' _ => hframe i' hi' a ha (by omega) (.inr ha')) ?_ hsub
  intro i' hi' k hk hr' _ _ t _ ht _
  have := block_in_page hk ht (S.page i')
  have := eight_le_blockBytes k
  refine load64_congr fun a ha ha' => hframe i' hi' a (by omega) (by omega) (.inl ?_)
  exact hl.small_ne_header hr' hi

end Free

end Cutesugar.Kernel.Malloc
