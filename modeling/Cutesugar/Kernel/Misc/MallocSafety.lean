import Cutesugar.Kernel.Misc.MallocPage
import Cutesugar.Lib.Run
import Mathlib.Order.CompletePartialOrder
import Mathlib.Order.Interval.Set.Disjoint

/-!
# Safety of the kernel heap for small requests

Clients call `malloc` with sizes below 2048, `free` live pointers and write bytes inside
their live blocks, in any order. The question is whether the live ranges stay disjoint from
each other and from the page headers.

`free` masks its argument down to the page and then pushes the *page* on the free stack, so
the next `malloc` of that class hands out the page header. The runs in which no class is
allocated from after a block of it was freed are exactly the runs that stay clear of this.

## Structure

- `HeapRun`, `Call`, `step`: the heap together with the live blocks, and what clients do.
- `LiveDisjoint`: the safety property.
- `Inv`: the invariant, one preservation lemma for each kind of call.
-/

namespace Cutesugar.Kernel.Malloc

open Lib Lib.Memory

/-! ## Runs of clients -/

/-- The heap, the live allocations (pointer and requested size) and the classes in which some
block has been freed. -/
structure HeapRun where
  heap : Heap
  live : List (ℕ × ℕ)
  freed : List ℕ

/-- What clients of the heap do. -/
inductive Call where
  | malloc (size : ℕ)
  | free (p : ℕ)
  | write (a : ℕ) (b : UInt8)

/-- One client call. -/
def HeapRun.step (s : HeapRun) : Call → HeapRun
  | .malloc size =>
    match Malloc.malloc s.heap size with
    | some (p, h) => { s with heap := h, live := (p, size) :: s.live }
    | none => s
  | .free p =>
    match s.live.find? (·.1 == p) with
    | some x =>
      { heap := Malloc.free s.heap p
        live := s.live.erase x
        freed := sizeClass x.2 :: s.freed }
    | none => s
  | .write a b => { s with heap := { s.heap with mem := Function.update s.heap.mem a b } }

/-- The heap before the first call: any memory, empty bins. -/
def HeapRun.start (S : PageSupply) (m : Memory) : HeapRun where
  heap := ⟨m, fun _ => 0, 0, S.page, 0⟩
  live := []
  freed := []

/-- The calls the property is about: small requests while pages last, frees of live pointers
and writes inside live blocks. -/
def Possible (S : PageSupply) (s : HeapRun) : Call → Prop
  | .malloc size => size < 2048 ∧ s.heap.expanded < S.count
  | .free p => ∃ x ∈ s.live, x.1 = p
  | .write a _ => ∃ x ∈ s.live, x.1 ≤ a ∧ a < x.1 + x.2

/-- No block of a class is requested after one of that class was freed. -/
def NoReuse (s : HeapRun) : Call → Prop
  | .malloc size => sizeClass size ∉ s.freed
  | _ => True

instance (S : PageSupply) (s : HeapRun) : (c : Call) → Decidable (Possible S s c)
  | .malloc _ => inferInstanceAs (Decidable (_ ∧ _))
  | .free _ => inferInstanceAs (Decidable (∃ x ∈ s.live, _))
  | .write _ _ => inferInstanceAs (Decidable (∃ x ∈ s.live, _))

instance (s : HeapRun) : (c : Call) → Decidable (NoReuse s c)
  | .malloc _ => inferInstanceAs (Decidable (¬ _))
  | .free _ => .isTrue trivial
  | .write _ _ => .isTrue trivial

/-- The addresses of an allocation. -/
def range (x : ℕ × ℕ) : Set ℕ := Set.Ico x.1 (x.1 + x.2)

/-- The header of the `i`-th page obtained. -/
def headerRange (h : Heap) (i : ℕ) : Set ℕ := Set.Ico (h.pages i) (h.pages i + headerBytes)

/-- The live ranges are pairwise disjoint and disjoint from every page header. -/
def LiveDisjoint (s : HeapRun) : Prop :=
  s.live.Pairwise (fun x y => Disjoint (range x) (range y)) ∧
    ∀ x ∈ s.live, ∀ i < s.heap.expanded, Disjoint (range x) (headerRange s.heap i)

/-! ## The invariant -/

/-- The class a page was taken for, as its header records it. -/
def pageClass (m : Memory) (page : ℕ) : ℕ := m.load (page + 16) 4

/-- The allocation is a block of the grid of a page of its class. -/
def OnGrid (S : PageSupply) (h : Heap) (x : ℕ × ℕ) : Prop :=
  x.2 < 2048 ∧ ∃ i < h.expanded, pageClass h.mem (S.page i) = sizeClass x.2 ∧
    ∃ j ≤ available (sizeClass x.2), x.1 = blockAddr (S.page i) (sizeClass x.2) j

/-- A class nothing was freed in: its bin is empty or holds one page, the blocks of which are
free from some block on, and none of these is live. -/
def BinOk (S : PageSupply) (h : Heap) (live : List (ℕ × ℕ)) (k : ℕ) : Prop :=
  h.binHeaders k = 0 ∨ ∃ i < h.expanded, ∃ j, h.binHeaders k = S.page i ∧
    pageClass h.mem (S.page i) = k ∧ headerNext h.mem (S.page i) = 0 ∧
    FreeFrom h.mem (S.page i) k j ∧
    ∀ x ∈ live, ∀ t, j ≤ t → t ≤ available k → x.1 ≠ blockAddr (S.page i) k t

/-- A class something was freed in: its bin starts with a page whose free stack starts with
the page itself. -/
def BinSpoilt (S : PageSupply) (h : Heap) (k : ℕ) : Prop :=
  ∃ i < h.expanded, h.binHeaders k = S.page i ∧ pageClass h.mem (S.page i) = k ∧
    headerHead h.mem (S.page i) = S.page i

structure Inv (S : PageSupply) (s : HeapRun) : Prop where
  pages : s.heap.pages = S.page
  count : s.heap.expanded ≤ S.count
  sizes : ∀ i < s.heap.expanded, pageClass s.heap.mem (S.page i) ≤ 8
  live : ∀ x ∈ s.live, OnGrid S s.heap x
  nodup : (s.live.map Prod.fst).Nodup
  bins : ∀ k ≤ 8, k ∉ s.freed → BinOk S s.heap s.live k
  spoilt : ∀ k ∈ s.freed, BinSpoilt S s.heap k

theorem Inv.start (S : PageSupply) (m : Memory) : Inv S (HeapRun.start S m) where
  pages := rfl
  count := Nat.zero_le _
  sizes i hi := absurd hi (Nat.not_lt_zero i)
  live _ hx := absurd hx List.not_mem_nil
  nodup := List.nodup_nil
  bins _ _ _ := .inl rfl
  spoilt _ hk := absurd hk List.not_mem_nil

/-! ## The invariant gives the property -/

/-- The block of an allocation lies behind the header of its page and holds its range. -/
theorem OnGrid.block {S : PageSupply} {h : Heap} {x : ℕ × ℕ} (hx : OnGrid S h x) :
    ∃ i < h.expanded, pageClass h.mem (S.page i) = sizeClass x.2 ∧
      S.page i + 24 ≤ x.1 ∧ x.1 + 8 * 2 ^ sizeClass x.2 ≤ S.page i + 0x1000 ∧
      x.2 < 8 * 2 ^ sizeClass x.2 := by
  obtain ⟨hsize, i, hi, hclass, j, hj, haddr⟩ := hx
  have hin := block_in_page (sizeClass_le_eight hsize) hj (S.page i)
  refine ⟨i, hi, hclass, by omega, by omega, ?_⟩
  exact size_lt_of_sizeClass (hsize.trans (by decide))

/-- An allocation and a block at another address do not meet. -/
theorem OnGrid.apart_block {S : PageSupply} {h : Heap} {x : ℕ × ℕ} {i k j : ℕ}
    (hcount : h.expanded ≤ S.count) (hx : OnGrid S h x) (hk : k ≤ 8) (hi : i < h.expanded)
    (hclass : pageClass h.mem (S.page i) = k) (hj : j ≤ available k)
    (hne : x.1 ≠ blockAddr (S.page i) k j) :
    Apart x.1 (8 * 2 ^ sizeClass x.2) (blockAddr (S.page i) k j) (8 * 2 ^ k) := by
  obtain ⟨hxs, i', hi', hxc, j', hj', hxa⟩ := hx
  have hxin := block_in_page (sizeClass_le_eight hxs) hj' (S.page i')
  have hin := block_in_page hk hj (S.page i)
  rcases eq_or_ne i i' with rfl | hpage
  · -- one page, hence one class and two blocks of one grid
    have hxk : sizeClass x.2 = k := hxc.symm.trans hclass
    rw [hxa, hxk]
    apply blocks_apart_of_ne
    rintro rfl
    exact hne (by rw [hxa, hxk])
  · have := S.apart (hi.trans_le hcount) (hi'.trans_le hcount) hpage
    unfold Apart at this ⊢
    omega

/-- Allocations at different addresses have disjoint blocks. -/
theorem OnGrid.apart {S : PageSupply} {h : Heap} {x y : ℕ × ℕ} (hcount : h.expanded ≤ S.count)
    (hx : OnGrid S h x) (hy : OnGrid S h y) (hne : x.1 ≠ y.1) :
    Apart x.1 (8 * 2 ^ sizeClass x.2) y.1 (8 * 2 ^ sizeClass y.2) := by
  obtain ⟨hys, i, hi, hyc, j, hj, hya⟩ := hy
  rw [hya] at hne ⊢
  exact hx.apart_block hcount (sizeClass_le_eight hys) hi hyc hj hne

theorem disjoint_Ico_of_apart {a n b k : ℕ} (h : Apart a n b k) :
    Disjoint (Set.Ico a (a + n)) (Set.Ico b (b + k)) := by
  rw [Set.disjoint_left]
  rintro c ⟨h1, h2⟩ ⟨h3, h4⟩
  unfold Apart at h
  omega

theorem Inv.liveDisjoint {S : PageSupply} {s : HeapRun} (h : Inv S s) : LiveDisjoint s := by
  constructor
  · have hpair : s.live.Pairwise fun x y => x.1 ≠ y.1 := List.pairwise_map.mp h.nodup
    refine hpair.imp_of_mem fun {x y} hx hy hne => ?_
    have happ := OnGrid.apart h.count (h.live x hx) (h.live y hy) hne
    obtain ⟨-, -, -, -, -, hxs⟩ := (h.live x hx).block
    obtain ⟨-, -, -, -, -, hys⟩ := (h.live y hy).block
    apply disjoint_Ico_of_apart
    unfold Apart at happ ⊢
    omega
  · intro x hx i hi
    obtain ⟨i', hi', -, hlo, hhi, hsize⟩ := (h.live x hx).block
    rw [headerRange, h.pages]
    apply disjoint_Ico_of_apart
    rcases eq_or_ne i' i with rfl | hpage
    · simp only [Apart, headerBytes]
      omega
    · have := S.apart (hi'.trans_le h.count) (hi.trans_le h.count) hpage
      simp only [Apart, headerBytes] at this ⊢
      omega

/-! ## Transport along heap changes

The next lemmas move each part of the invariant to another heap that agrees on the pages the
part is about. -/

section Transport

variable {S : PageSupply} {h h' : Heap} {live live' : List (ℕ × ℕ)} {k : ℕ}

theorem OnGrid.transport {x : ℕ × ℕ} (hx : OnGrid S h x) (hexp : h.expanded ≤ h'.expanded)
    (hclass : ∀ i < h.expanded, pageClass h'.mem (S.page i) = pageClass h.mem (S.page i)) :
    OnGrid S h' x := by
  obtain ⟨hsize, i, hi, hc, hblock⟩ := hx
  exact ⟨hsize, i, hi.trans_le hexp, (hclass i hi).trans hc, hblock⟩

theorem BinOk.transport (hb : BinOk S h live k) (hexp : h.expanded ≤ h'.expanded)
    (hbin : h'.binHeaders k = h.binHeaders k)
    (hheader : ∀ i < h.expanded, pageClass h.mem (S.page i) = k →
      ∀ a, S.page i ≤ a → a < S.page i + 24 → h'.mem a = h.mem a)
    (hword : ∀ i < h.expanded, pageClass h.mem (S.page i) = k → ∀ t ≤ available k,
      (∀ x ∈ live, x.1 ≠ blockAddr (S.page i) k t) →
      h'.mem.load64 (blockAddr (S.page i) k t) = h.mem.load64 (blockAddr (S.page i) k t))
    (hlive : ∀ x ∈ live', x ∈ live ∨ ∀ i < h.expanded, pageClass h.mem (S.page i) = k →
      ∀ t ≤ available k, x.1 ≠ blockAddr (S.page i) k t) :
    BinOk S h' live' k := by
  rcases hb with h0 | ⟨i, hi, j, hb, hc, hn, hf, hnot⟩
  · exact .inl (hbin.trans h0)
  · have hh := hheader i hi hc
    refine .inr ⟨i, hi.trans_le hexp, j, hbin.trans hb, ?_, ?_, ?_, ?_⟩
    · exact (load_congr fun a ha ha' => hh a (by omega) (by omega)).trans hc
    · exact (load64_congr fun a ha ha' => hh a (by omega) (by omega)).trans hn
    · refine hf.congr (load64_congr fun a ha ha' => hh a (by omega) (by omega)) fun t ht ht' => ?_
      exact hword i hi hc t ht' fun x hx => hnot x hx t ht ht'
    · intro x hx t ht ht'
      rcases hlive x hx with hx | hx
      · exact hnot x hx t ht ht'
      · exact hx i hi hc t ht'

theorem BinSpoilt.transport (hb : BinSpoilt S h k) (hexp : h.expanded ≤ h'.expanded)
    (hbin : h'.binHeaders k = h.binHeaders k)
    (hheader : ∀ i < h.expanded, pageClass h.mem (S.page i) = k →
      ∀ a, S.page i ≤ a → a < S.page i + 24 → h'.mem a = h.mem a) :
    BinSpoilt S h' k := by
  obtain ⟨i, hi, hb, hc, hhead⟩ := hb
  have hh := hheader i hi hc
  refine ⟨i, hi.trans_le hexp, hbin.trans hb, ?_, ?_⟩
  · exact (load_congr fun a ha ha' => hh a (by omega) (by omega)).trans hc
  · exact (load64_congr fun a ha ha' => hh a (by omega) (by omega)).trans hhead

/-- A change inside the first 16 bytes of page `i` leaves the other pages alone. -/
theorem other_page_eq {m m' : Memory} {i i' n : ℕ} (hi : i < S.count) (hi' : i' < S.count)
    (hframe : ∀ a, ¬ (S.page i ≤ a ∧ a < S.page i + 16) → m' a = m a)
    (hne : i' ≠ i) {a : ℕ} (ha : S.page i' ≤ a) (ha' : a < S.page i' + n) (hn : n ≤ 0x1000) :
    m' a = m a := by
  have := S.apart hi' hi hne
  unfold Apart at this
  exact hframe a (by omega)

/-- Classes are kept behind the 16 bytes that change. -/
theorem pageClass_eq {m m' : Memory} {i i' : ℕ} (hi : i < S.count) (hi' : i' < S.count)
    (hframe : ∀ a, ¬ (S.page i ≤ a ∧ a < S.page i + 16) → m' a = m a) :
    pageClass m' (S.page i') = pageClass m (S.page i') := by
  refine load_congr fun a ha ha' => ?_
  rcases eq_or_ne i' i with rfl | hne
  · exact hframe a (by omega)
  · exact other_page_eq hi hi' hframe hne (show S.page i' ≤ a by omega)
      (show a < S.page i' + 24 by omega) (by decide)

/-- A bin has the pages of its class only, so a change in a page of another class leaves it. -/
theorem BinOk.frame (hb : BinOk S h live k) (hk : k ≤ 8) {i : ℕ} (hi : i < S.count)
    (hcount : h.expanded ≤ S.count) (hexp : h.expanded ≤ h'.expanded)
    (hbin : h'.binHeaders k = h.binHeaders k)
    (hframe : ∀ a, ¬ (S.page i ≤ a ∧ a < S.page i + 16) → h'.mem a = h.mem a)
    (hclass : pageClass h.mem (S.page i) ≠ k)
    (hlive : ∀ x ∈ live', x ∈ live ∨ ∀ i' < h.expanded, pageClass h.mem (S.page i') = k →
      ∀ t ≤ available k, x.1 ≠ blockAddr (S.page i') k t) :
    BinOk S h' live' k := by
  have hpage_ne : ∀ i', pageClass h.mem (S.page i') = k → i' ≠ i := by
    rintro i' hc rfl
    exact hclass hc
  refine hb.transport hexp hbin ?_ ?_ hlive
  · exact fun i' hi' hc a ha ha' =>
      other_page_eq hi (hi'.trans_le hcount) hframe (hpage_ne i' hc) ha ha' (by decide)
  · intro i' hi' hc t ht _
    have := block_in_page hk ht (S.page i')
    have := eight_le_blockBytes k
    exact load64_congr fun a ha ha' =>
      other_page_eq hi (hi'.trans_le hcount) hframe (hpage_ne i' hc)
        (show S.page i' ≤ a by omega) (show a < S.page i' + 0x1000 by omega) le_rfl

theorem BinSpoilt.frame (hb : BinSpoilt S h k) {i : ℕ} (hi : i < S.count)
    (hcount : h.expanded ≤ S.count) (hexp : h.expanded ≤ h'.expanded)
    (hbin : h'.binHeaders k = h.binHeaders k)
    (hframe : ∀ a, ¬ (S.page i ≤ a ∧ a < S.page i + 16) → h'.mem a = h.mem a)
    (hclass : pageClass h.mem (S.page i) ≠ k) : BinSpoilt S h' k := by
  refine hb.transport hexp hbin fun i' hi' hc a ha ha' => ?_
  have hpage_ne : i' ≠ i := by
    rintro rfl
    exact hclass hc
  exact other_page_eq hi (hi'.trans_le hcount) hframe hpage_ne ha ha' (by decide)

end Transport

/-! ## `malloc` keeps the invariant -/

section Steps

variable {S : PageSupply} {s : HeapRun}

/-- Taking a new page for an empty bin. -/
theorem Inv.expand (h : Inv S s) {k : ℕ} (hk : k ≤ 8) (hfreed : k ∉ s.freed)
    (hbin : s.heap.binHeaders k = 0) (hsupply : s.heap.expanded < S.count) :
    Inv S { s with heap := expandBin s.heap k } ∧
      (expandBin s.heap k).binHeaders k = S.page s.heap.expanded := by
  have hpage : s.heap.pages s.heap.expanded = S.page s.heap.expanded := by rw [h.pages]
  have hbelow := S.below _ hsupply
  rw [← hpage] at hbelow
  obtain ⟨hframe, hfree, hnext, hsize⟩ :=
    expandBin_spec hk hbelow (hbin.trans_lt (by decide))
  rw [hpage] at hframe hfree hnext hsize
  rw [hbin] at hnext
  have hexp : (expandBin s.heap k).expanded = s.heap.expanded + 1 := by
    rw [expandBin_eq k hbelow]
  have hbins : (expandBin s.heap k).binHeaders =
      Function.update s.heap.binHeaders k (S.page s.heap.expanded) := by
    rw [expandBin_eq k hbelow, hpage]
  -- the pages obtained earlier do not meet the new one
  have hold : ∀ i < s.heap.expanded, ∀ a, S.page i ≤ a → a < S.page i + 0x1000 →
      (expandBin s.heap k).mem a = s.heap.mem a := by
    intro i hi a ha ha'
    have := S.apart (hi.trans hsupply) hsupply hi.ne
    unfold Apart at this
    exact hframe a (by omega)
  have hclass : ∀ i < s.heap.expanded,
      pageClass (expandBin s.heap k).mem (S.page i) = pageClass s.heap.mem (S.page i) :=
    fun i hi => load_congr fun a ha ha' => hold i hi a (by omega) (by omega)
  refine ⟨{ pages := ?_, count := ?_, sizes := ?_, live := ?_, nodup := h.nodup, bins := ?_,
            spoilt := ?_ }, by simp [hbins]⟩
  · rw [← h.pages, expandBin_eq k hbelow]
  · simp only [hexp]
    omega
  · intro i hi
    simp only [hexp] at hi
    rcases Nat.lt_succ_iff_lt_or_eq.mp hi with hi | rfl
    · exact (hclass i hi).trans_le (h.sizes i hi)
    · exact hsize.trans_le hk
  · exact fun x hx => (h.live x hx).transport (by simp [hexp]) hclass
  · intro k' hk' hfreed'
    rcases eq_or_ne k' k with rfl | hne
    · refine .inr ⟨s.heap.expanded, by simp [hexp], 0, by simp [hbins], hsize, hnext, hfree, ?_⟩
      -- every live block lies on an older page
      intro x hx t _ ht
      obtain ⟨i, hi, -, hlo, hhi, -⟩ := (h.live x hx).block
      have := S.apart (hi.trans hsupply) hsupply hi.ne
      have := block_in_page hk ht (S.page s.heap.expanded)
      have := eight_le_blockBytes (sizeClass x.2)
      unfold Apart at *
      omega
    · refine (h.bins k' hk' hfreed').transport (by simp [hexp]) (by simp [hbins, hne]) ?_ ?_
        fun x hx => .inl hx
      · exact fun i hi _ a ha ha' => hold i hi a ha (by omega)
      · intro i hi _ t ht _
        have := block_in_page hk' ht (S.page i)
        have := eight_le_blockBytes k'
        exact load64_congr fun a ha ha' => hold i hi a (by omega) (by omega)
  · intro k' hk'
    have hne : k' ≠ k := by
      rintro rfl
      exact hfreed hk'
    exact (h.spoilt k' hk').transport (by simp [hexp]) (by simp [hbins, hne])
      fun i hi _ a ha ha' => hold i hi a ha (by omega)

/-- Taking a block from the page at the head of the bin. -/
theorem Inv.take (h : Inv S s) {size : ℕ} (hsize : size < 2048)
    (hfreed : sizeClass size ∉ s.freed) (hbin : s.heap.binHeaders (sizeClass size) ≠ 0) :
    Inv S { heap := (mallocSmall s.heap (sizeClass size)).2
            live := ((mallocSmall s.heap (sizeClass size)).1, size) :: s.live
            freed := s.freed } := by
  have hk := sizeClass_le_eight hsize
  generalize hcls : sizeClass size = k at hk hfreed hbin ⊢
  rcases h.bins k hk hfreed with h0 | ⟨i, hi, j, hpage, hclass, hnext, hfree, hnot⟩
  · exact absurd h0 hbin
  have hiS := hi.trans_le h.count
  obtain ⟨hptr, hframe, hpages, hexp, hother, hrest⟩ :=
    mallocSmall_spec hk (S.below i hiS) hpage (S.nonnull i hiS) hnext hfree
  generalize (mallocSmall s.heap k).1 = p at hptr ⊢
  generalize (mallocSmall s.heap k).2 = h' at hframe hpages hexp hother hrest ⊢
  subst hptr
  have hj_in := block_in_page hk hfree.le (S.page i)
  have h8 := eight_le_blockBytes k
  have hclass' : ∀ i' < s.heap.expanded,
      pageClass h'.mem (S.page i') = pageClass s.heap.mem (S.page i') :=
    fun i' hi' => pageClass_eq hiS (hi'.trans_le h.count) hframe
  refine { pages := hpages.trans h.pages, count := hexp ▸ h.count, sizes := ?_, live := ?_,
           nodup := ?_, bins := ?_, spoilt := ?_ }
  · intro i' hi'
    rw [hexp] at hi'
    exact (hclass' i' hi').trans_le (h.sizes i' hi')
  · intro x hx
    rcases List.mem_cons.mp hx with rfl | hx
    · exact ⟨hsize, i, hexp ▸ hi, (hclass' i hi).trans (hclass.trans hcls.symm), j,
        hcls ▸ hfree.le, by rw [hcls]⟩
    · exact (h.live x hx).transport hexp.ge hclass'
  · refine List.nodup_cons.mpr ⟨fun hmem => ?_, h.nodup⟩
    obtain ⟨x, hx, heq⟩ := List.mem_map.mp hmem
    exact hnot x hx j le_rfl hfree.le heq
  · intro k' hk' hfreed'
    rcases eq_or_ne k' k with rfl | hne
    · rcases hrest with ⟨-, h0⟩ | ⟨hbin', hnext', hfree'⟩
      · exact .inl h0
      · refine .inr ⟨i, hexp ▸ hi, j + 1, hbin', (hclass' i hi).trans hclass, hnext', hfree', ?_⟩
        intro x hx t ht ht'
        rcases List.mem_cons.mp hx with rfl | hx
        · have happ := blocks_apart_of_ne (k := k') (S.page i) (show j ≠ t by omega)
          unfold Apart at happ
          simp only [ne_eq]
          omega
        · exact hnot x hx t (by omega) ht'
    · -- another class: its pages are other pages
      have hpage : pageClass s.heap.mem (S.page i) ≠ k' := hclass.trans_ne hne.symm
      refine (h.bins k' hk' hfreed').frame hk' hiS h.count hexp.ge (hother k' hne) hframe hpage ?_
      intro x hx
      rcases List.mem_cons.mp hx with rfl | hx
      · refine .inr fun i' hi' hc t ht => ?_
        have hi_ne : i ≠ i' := by
          rintro rfl
          exact hpage hc
        have := S.apart hiS (hi'.trans_le h.count) hi_ne
        have := block_in_page hk' ht (S.page i')
        have := eight_le_blockBytes k'
        unfold Apart at *
        simp only [ne_eq]
        omega
      · exact .inl hx
  · intro k' hk'
    have hne : k' ≠ k := by
      rintro rfl
      exact hfreed hk'
    exact (h.spoilt k' hk').frame hiS h.count hexp.ge (hother k' hne) hframe (hclass.trans_ne hne.symm)

/-- **`malloc` step**: a small request of a class nothing was freed in. -/
theorem Inv.malloc (h : Inv S s) {size : ℕ} (hsize : size < 2048)
    (hsupply : mallocNeedsExpansion s.heap (s.heap.binHeaders (sizeClass size)) = true →
      s.heap.expanded < S.count) (hfreed : sizeClass size ∉ s.freed) :
    Inv S (s.step (.malloc size)) := by
  have hk := sizeClass_le_eight hsize
  have hsmall : Malloc.malloc s.heap size = some (mallocSmall s.heap (sizeClass size)) := by
    simp [Malloc.malloc, show ¬ 9 ≤ sizeClass size by omega]
  simp only [HeapRun.step, hsmall]
  by_cases hbin : s.heap.binHeaders (sizeClass size) = 0
  · have hneeds : mallocNeedsExpansion s.heap (s.heap.binHeaders (sizeClass size)) = true := by
      simp [mallocNeedsExpansion, hbin]
    have hsupply := hsupply hneeds
    obtain ⟨hinv, hpage⟩ := h.expand hk hfreed hbin hsupply
    have hne : (expandBin s.heap (sizeClass size)).binHeaders (sizeClass size) ≠ 0 := by
      rw [hpage]
      exact S.nonnull _ hsupply
    have hready : mallocNeedsExpansion (expandBin s.heap (sizeClass size))
        ((expandBin s.heap (sizeClass size)).binHeaders (sizeClass size)) = false := by
      rcases hinv.bins _ hk hfreed with h0 | ⟨i, hi, j, hb, -, -, hfree, -⟩
      · exact absurd h0 hne
      · simp only at hb hfree
        rw [hb] at hne ⊢
        exact hfree.not_needsExpansion hne
    rw [mallocSmall_of_needs hneeds hready]
    exact hinv.take hsize hfreed hne
  · exact h.take hsize hfreed hbin

/-- **`free` step**: from here on the class of the block is spoilt. -/
theorem Inv.free (h : Inv S s) {p : ℕ} (hlive : ∃ x ∈ s.live, x.1 = p) :
    Inv S (s.step (.free p)) := by
  obtain ⟨x, hfind⟩ : ∃ x, s.live.find? (·.1 == p) = some x := by
    obtain ⟨x, hx, rfl⟩ := hlive
    exact Option.isSome_iff_exists.mp (List.find?_isSome.mpr ⟨x, hx, by simp⟩)
  obtain rfl : x.1 = p := by simpa using List.find?_some hfind
  have hx := List.mem_of_find?_eq_some hfind
  simp only [HeapRun.step, hfind]
  obtain ⟨i, hi, hclass, hlo, hhi, -⟩ := (h.live x hx).block
  have hk := sizeClass_le_eight (h.live x hx).1
  have h8 := eight_le_blockBytes (sizeClass x.2)
  generalize hcls : sizeClass x.2 = k at hclass hhi hk h8 ⊢
  have hiS := hi.trans_le h.count
  have hlo' : S.page i ≤ x.1 := by omega
  obtain ⟨hframe, hhead, -, hbins, hpages, hexp⟩ := free_spec hk (S.aligned i hiS)
    (S.nonnull i hiS) (S.below i hiS) hlo' (by omega) hclass
  generalize Malloc.free s.heap x.1 = h' at hframe hhead hbins hpages hexp ⊢
  -- only the link of the block and the header of its page change
  have hclass' : ∀ i' < s.heap.expanded,
      pageClass h'.mem (S.page i') = pageClass s.heap.mem (S.page i') :=
    fun i' hi' => pageClass_eq hiS (hi'.trans_le h.count) hframe
  refine { pages := hpages.trans h.pages, count := hexp ▸ h.count, sizes := ?_, live := ?_,
           nodup := ?_, bins := ?_, spoilt := ?_ }
  · intro i' hi'
    rw [hexp] at hi'
    exact (hclass' i' hi').trans_le (h.sizes i' hi')
  · exact fun y hy => (h.live y (List.mem_of_mem_erase hy)).transport hexp.ge hclass'
  · exact (List.erase_sublist.map Prod.fst).nodup h.nodup
  · intro k' hk' hfreed
    obtain ⟨hne, hfreed⟩ : k' ≠ k ∧ k' ∉ s.freed := by simpa [not_or] using hfreed
    exact (h.bins k' hk' hfreed).frame hk' hiS h.count hexp.ge (by simp [hbins, hne]) hframe
      (hclass.trans_ne hne.symm) fun y hy => .inl (List.mem_of_mem_erase hy)
  · intro k' hk'
    -- the bin of the block is spoilt from now on
    rcases eq_or_ne k' k with rfl | hne
    · exact ⟨i, hexp ▸ hi, by simp [hbins], (hclass' i hi).trans hclass, hhead⟩
    · have hk' : k' ∈ s.freed := (List.mem_cons.mp hk').resolve_left hne
      exact (h.spoilt k' hk').frame hiS h.count hexp.ge (by simp [hbins, hne]) hframe
        (hclass.trans_ne hne.symm)

/-- Page headers keep clear of the live blocks. -/
theorem Inv.header_ne (h : Inv S s) {a : ℕ} (ha : ∃ x ∈ s.live, x.1 ≤ a ∧ a < x.1 + x.2)
    {i c : ℕ} (hi : i < s.heap.expanded) (hc : S.page i ≤ c) (hc' : c < S.page i + 24) :
    c ≠ a := by
  rintro rfl
  obtain ⟨x, hx, hlo, hhi⟩ := ha
  obtain ⟨i', hi', -, hxlo, hxhi, hsize⟩ := (h.live x hx).block
  rcases eq_or_ne i i' with rfl | hne
  · omega
  · have := S.apart (hi.trans_le h.count) (hi'.trans_le h.count) hne
    unfold Apart at this
    omega

/-- **Client write step**: a byte inside a live block is in no header and in no free block. -/
theorem Inv.write (h : Inv S s) {a : ℕ} {b : UInt8}
    (ha : ∃ x ∈ s.live, x.1 ≤ a ∧ a < x.1 + x.2) : Inv S (s.step (.write a b)) := by
  change Inv S { s with heap := { s.heap with mem := Function.update s.heap.mem a b } }
  have hheader : ∀ i' < s.heap.expanded, ∀ c, S.page i' ≤ c → c < S.page i' + 24 → c ≠ a :=
    fun i' hi' c hc hc' => h.header_ne ha hi' hc hc'
  obtain ⟨x, hx, hlo, hhi⟩ := ha
  obtain ⟨i, hi, hclass, hxlo, hxhi, hsize⟩ := (h.live x hx).block
  have hframe : ∀ i' < s.heap.expanded, ∀ c, S.page i' ≤ c → c < S.page i' + 24 →
      Function.update s.heap.mem a b c = s.heap.mem c :=
    fun i' hi' c hc hc' => Function.update_of_ne (hheader i' hi' c hc hc') _ _
  have hclass' : ∀ i' < s.heap.expanded,
      pageClass (Function.update s.heap.mem a b) (S.page i') =
        pageClass s.heap.mem (S.page i') :=
    fun i' hi' => load_congr fun c hc hc' => hframe i' hi' c (by omega) (by omega)
  refine { pages := h.pages, count := h.count, sizes := ?_, live := ?_, nodup := h.nodup,
           bins := ?_, spoilt := ?_ }
  · exact fun i' hi' => (hclass' i' hi').trans_le (h.sizes i' hi')
  · exact fun y hy => (h.live y hy).transport le_rfl hclass'
  · intro k hk hfreed
    refine (h.bins k hk hfreed).transport le_rfl rfl (fun i' hi' _ => hframe i' hi') ?_
      fun y hy => .inl hy
    intro i' hi' hc t ht hnot
    have happ := (h.live x hx).apart_block h.count hk hi' hc ht (hnot x hx)
    have := eight_le_blockBytes k
    refine load64_congr fun c hc hc' => Function.update_of_ne ?_ _ _
    rintro rfl
    unfold Apart at happ
    omega
  · exact fun k hk => (h.spoilt k hk).transport le_rfl rfl fun i' hi' _ => hframe i' hi'

/-- **Step lemma**: every possible call that respects `NoReuse` keeps the invariant. -/
theorem Inv.step (h : Inv S s) {c : Call} (hposs : Possible S s c) (hgood : NoReuse s c) :
    Inv S (s.step c) := by
  cases c with
  | malloc size => exact h.malloc hposs.1 (fun _ => hposs.2) hgood
  | free p => exact h.free hposs
  | write a b => exact h.write hposs

/-! ## A request after a free of the same class -/

/-- A request served from a page whose free stack starts with the page itself returns the
page. -/
theorem mallocSmall_of_self {h : Heap} {k page : ℕ} (hbin : h.binHeaders k = page)
    (hne : page ≠ 0) (hhead : headerHead h.mem page = page) :
    ∃ h', mallocSmall h k = (page, h') ∧ h'.expanded = h.expanded ∧ h'.pages = h.pages := by
  have hneeds : mallocNeedsExpansion h page = false := by
    simp [mallocNeedsExpansion, hne, hhead]
  -- what is popped is the head of the stack, the page itself
  have hpop : (popFromStack h page).1 = page := hhead
  simp only [mallocSmall, hbin, hneeds, Bool.false_eq_true, if_false, hpop]
  split_ifs
  · exact ⟨_, rfl, rfl, rfl⟩
  · exact ⟨_, rfl, rfl, rfl⟩

/-- After a block of the class was freed, the next request of the class is given a page
header. -/
theorem Inv.reuse_breaks (h : Inv S s) {size : ℕ} (hpos : 0 < size) (hsize : size < 2048)
    (hfreed : sizeClass size ∈ s.freed) : ¬ LiveDisjoint (s.step (.malloc size)) := by
  obtain ⟨i, hi, hbin, -, hhead⟩ := h.spoilt _ hfreed
  have hk := sizeClass_le_eight hsize
  obtain ⟨h', hsmall, hexp, hpages⟩ :=
    mallocSmall_of_self hbin (S.nonnull i (hi.trans_le h.count)) hhead
  have hmalloc : Malloc.malloc s.heap size = some (S.page i, h') := by
    simp [Malloc.malloc, show ¬ 9 ≤ sizeClass size by omega, hsmall]
  rintro ⟨-, hdisj⟩
  simp only [HeapRun.step, hmalloc] at hdisj
  have hmeet := hdisj (S.page i, size) (List.mem_cons_self ..) i (by rw [hexp]; exact hi)
  rw [headerRange, range, hpages, h.pages, Set.disjoint_left] at hmeet
  refine hmeet (a := S.page i) ?_ ?_
  · exact ⟨le_rfl, Nat.lt_add_of_pos_right hpos⟩
  · exact ⟨le_rfl, Nat.lt_add_of_pos_right (by decide)⟩

end Steps

/-! ## Whole runs -/

/-- **Heap safety**: a run that never requests a class after a free of that class keeps the
live ranges disjoint, and a run without empty requests keeps them disjoint only so. -/
theorem liveDisjoint_everywhere (S : PageSupply) (m : Memory) (calls : List Call)
    (hposs : Along HeapRun.step (Possible S) (HeapRun.start S m) calls) :
    (Along HeapRun.step NoReuse (HeapRun.start S m) calls →
      Everywhere HeapRun.step LiveDisjoint (HeapRun.start S m) calls) ∧
    (.malloc 0 ∉ calls →
      (Everywhere HeapRun.step LiveDisjoint (HeapRun.start S m) calls ↔
        Along HeapRun.step NoReuse (HeapRun.start S m) calls)) := by
  constructor
  · intro hgood
    refine (along_and.mpr ⟨hposs, hgood⟩).everywhere (Inv.start S m) ?_ fun s => Inv.liveDisjoint
    exact fun s c h hc => h.step hc.1 hc.2
  · intro hpos
    have hne : Along HeapRun.step (fun _ c => c ≠ .malloc 0) (HeapRun.start S m) calls :=
      along_const.mpr fun c hc h0 => hpos (h0 ▸ hc)
    refine everywhere_iff_along (along_and.mpr ⟨hposs, hne⟩) (Inv.start S m) ?_
      (fun s => Inv.liveDisjoint) ?_
    · exact fun s c h hc hgood => h.step hc.1 hgood
    · rintro s (size | p | ⟨a, b⟩) h ⟨hc, h0⟩ hbad
      · have hsize : 0 < size := Nat.pos_of_ne_zero fun hz => h0 (by rw [hz])
        exact h.reuse_breaks hsize hc.1 (not_not.mp hbad)
      · exact absurd trivial hbad
      · exact absurd trivial hbad

/-- Two pages, at `0x1000` and `0x2000`. -/
def twoPages : PageSupply where
  page i := 0x1000 * (i + 1)
  count := 2
  aligned i _ := Nat.mul_mod_right ..
  nonnull i _ := by omega
  below i hi := by omega
  distinct i _ j _ h := by omega

/-- Two requests of one class, a write into the first block, a free of the second and a
request of another class. -/
theorem liveDisjoint_of_two_requests :
    Everywhere HeapRun.step LiveDisjoint (HeapRun.start twoPages fun _ => 0)
      [.malloc 100, .malloc 100, .write 4125 7, .free 4248, .malloc 9] :=
  (liveDisjoint_everywhere twoPages (fun _ => 0) _ (by decide)).1 (by decide)

/-- A request of 1024 bytes, its free and the same request again: the second request is given
the header of the page at `0x1000`. -/
theorem reuse_meets_header :
    Along HeapRun.step (Possible twoPages) (HeapRun.start twoPages fun _ => 0)
      [.malloc 1024, .free 4120, .malloc 1024] ∧
    ¬ LiveDisjoint (run HeapRun.step (HeapRun.start twoPages fun _ => 0)
      [.malloc 1024, .free 4120, .malloc 1024]) := by
  have hposs : Along HeapRun.step (Possible twoPages) (HeapRun.start twoPages fun _ => 0)
      [.malloc 1024, .free 4120, .malloc 1024] := by decide
  refine ⟨hposs, ?_⟩
  have hinv : Inv twoPages (run HeapRun.step (HeapRun.start twoPages fun _ => 0)
      [.malloc 1024, .free 4120]) :=
    ((Inv.start twoPages fun _ => 0).step hposs.1 (by decide)).step hposs.2.1 trivial
  have hfreed : sizeClass 1024 ∈ (run HeapRun.step (HeapRun.start twoPages fun _ => 0)
      [.malloc 1024, .free 4120]).freed := by decide
  exact hinv.reuse_breaks (by decide) (by decide) hfreed

end Cutesugar.Kernel.Malloc
