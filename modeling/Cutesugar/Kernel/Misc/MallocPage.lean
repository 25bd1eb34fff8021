import Cutesugar.Kernel.Misc.Malloc
import Mathlib.Tactic.Positivity

/-!
# One page of the kernel heap

A page of class `k` is a grid of blocks behind its header. This file fixes the geometry of
the grid and specifies the two operations that touch a page while its class has not been
freed into: `expandBin`, which builds the free stack of a new page, and `popFromStack`.
-/

namespace Cutesugar.Kernel.Malloc

open Lib Lib.Memory

/-! ## The page supply -/

/-- What the allocator relies on of `KernelExpandHeap`: the first `count` calls return
non-null, page-aligned, pairwise distinct pages inside the address space. -/
structure PageSupply where
  page : ℕ → ℕ
  count : ℕ
  aligned : ∀ i < count, page i % 0x1000 = 0
  nonnull : ∀ i < count, page i ≠ 0
  below : ∀ i < count, page i + 0x1000 ≤ 2 ^ 64
  distinct : ∀ i < count, ∀ j < count, page i = page j → i = j

theorem PageSupply.apart (S : PageSupply) {i j : ℕ} (hi : i < S.count) (hj : j < S.count)
    (hne : i ≠ j) : Apart (S.page i) 0x1000 (S.page j) 0x1000 := by
  have hpage : S.page i ≠ S.page j := fun h => hne (S.distinct i hi j hj h)
  have := S.aligned i hi
  have := S.aligned j hj
  unfold Apart
  omega

/-! ## The grid of blocks -/

/-- The address of block `j` of a page of class `k`. -/
def blockAddr (page k j : ℕ) : ℕ := page + headerBytes + 8 * (j <<< k)

/-- The blocks up to `available k` lie inside the page. -/
theorem block_in_page {k j : ℕ} (hk : k ≤ 8) (hj : j ≤ available k) (page : ℕ) :
    page + 24 ≤ blockAddr page k j ∧ blockAddr page k j + 8 * 2 ^ k ≤ page + 0x1000 := by
  have hpos : 1 ≤ 4072 / 2 ^ (3 + k) := by
    rw [Nat.one_le_div_iff (by positivity)]
    calc 2 ^ (3 + k) ≤ 2 ^ 11 := Nat.pow_le_pow_right (by decide) (by omega)
      _ ≤ 4072 := by decide
  have hcount : j + 1 ≤ 4072 / 2 ^ (3 + k) := by
    simp only [available, headerBytes, Nat.shiftRight_eq_div_pow, Nat.reduceSub] at hj
    omega
  have hfit : (j + 1) * 2 ^ (3 + k) ≤ 4072 :=
    (Nat.le_div_iff_mul_le (by positivity)).mp hcount
  have hsplit : (j + 1) * 2 ^ (3 + k) = 8 * (j * 2 ^ k) + 8 * 2 ^ k := by
    rw [pow_add]; ring
  simp only [blockAddr, headerBytes, Nat.shiftLeft_eq]
  omega

/-- Two blocks of one page are the same or do not meet. -/
theorem blocks_apart_of_ne {k i j : ℕ} (page : ℕ) (h : i ≠ j) :
    Apart (blockAddr page k i) (8 * 2 ^ k) (blockAddr page k j) (8 * 2 ^ k) := by
  simp only [Apart, blockAddr, Nat.shiftLeft_eq]
  rcases Nat.lt_or_gt_of_ne h with h | h
  · have := Nat.mul_le_mul_right (2 ^ k) h
    rw [Nat.succ_mul] at this
    omega
  · have := Nat.mul_le_mul_right (2 ^ k) h
    rw [Nat.succ_mul] at this
    omega

theorem eight_le_blockBytes (k : ℕ) : 8 ≤ 8 * 2 ^ k := by
  have : 0 < 2 ^ k := by positivity
  omega

/-! ## Free stacks -/

/-- The free stack of the page is exactly its blocks from `j` on, in order. -/
structure FreeFrom (m : Memory) (page k j : ℕ) : Prop where
  le : j ≤ available k
  head : headerHead m page = blockAddr page k j
  link : ∀ t, j ≤ t → t < available k → m.load64 (blockAddr page k t) = blockAddr page k (t + 1)
  last : m.load64 (blockAddr page k (available k)) = 0

/-- A page with a free block is taken from as it is. -/
theorem FreeFrom.not_needsExpansion {h : Heap} {page k j : ℕ} (hfree : FreeFrom h.mem page k j)
    (hpage : page ≠ 0) : mallocNeedsExpansion h page = false := by
  have : blockAddr page k j ≠ 0 := by simp only [blockAddr, headerBytes]; omega
  simp [mallocNeedsExpansion, hpage, hfree.head, this]

/-- A free stack depends on the `head` word and on the first words of the free blocks. -/
theorem FreeFrom.congr {m m' : Memory} {page k j : ℕ} (h : FreeFrom m page k j)
    (hhead : headerHead m' page = headerHead m page)
    (hword : ∀ t, j ≤ t → t ≤ available k →
      m'.load64 (blockAddr page k t) = m.load64 (blockAddr page k t)) :
    FreeFrom m' page k j where
  le := h.le
  head := hhead.trans h.head
  link t ht ht' := (hword t ht ht'.le).trans (h.link t ht ht')
  last := (hword _ h.le le_rfl).trans h.last

/-- Taking the first block leaves the others, or nothing behind the last one. -/
theorem FreeFrom.pop {m : Memory} {page k j : ℕ} (h : FreeFrom m page k j) (hk : k ≤ 8) :
    FreeFrom (m.store64 (page + 8) (m.load64 (blockAddr page k j))) page k (j + 1) ∨
      headerHead (m.store64 (page + 8) (m.load64 (blockAddr page k j))) page = 0 := by
  have hhead : headerHead (m.store64 (page + 8) (m.load64 (blockAddr page k j))) page =
      m.load64 (blockAddr page k j) := load64_store64_same_of_lt (load64_lt _ _)
  have hword : ∀ t ≤ available k,
      (m.store64 (page + 8) (m.load64 (blockAddr page k j))).load64 (blockAddr page k t) =
        m.load64 (blockAddr page k t) := by
    intro t ht
    have := (block_in_page hk ht page).1
    exact load64_store64_of_apart (by simp only [Apart]; omega)
  rcases h.le.lt_or_eq with hj | rfl
  · left
    exact ⟨hj, hhead.trans (h.link j le_rfl hj),
      fun t ht ht' => (hword t ht'.le).trans (h.link t (by omega) ht'),
      (hword _ le_rfl).trans h.last⟩
  · right
    rw [hhead]
    exact h.last

/-! ## Building the stack of a new page -/

section Expand

variable {m : Memory} {page k n : ℕ}

/-- The linking loop writes inside the first `n` blocks only. -/
theorem linkBlocks_frame {a : ℕ} (h : ¬ (page + headerBytes ≤ a ∧ a < blockAddr page k n)) :
    linkBlocks m (page + headerBytes) k n a = m a := by
  induction n with
  | zero => rfl
  | succ n ih =>
    have h8 := eight_le_blockBytes k
    have hstep : blockAddr page k (n + 1) = blockAddr page k n + 8 * 2 ^ k := by
      simp only [blockAddr, Nat.shiftLeft_eq]; ring
    have hbase : page + headerBytes ≤ blockAddr page k n := Nat.le_add_right ..
    change ((linkBlocks m (page + headerBytes) k n).store64 (blockAddr page k n)
      (blockAddr page k (n + 1))) a = m a
    rw [store64_apply_of_not_mem (by omega), ih (by omega)]

/-- It writes the first word of each of these blocks only. -/
theorem linkBlocks_word {a : ℕ}
    (h : ∀ t < n, ¬ (blockAddr page k t ≤ a ∧ a < blockAddr page k t + 8)) :
    linkBlocks m (page + headerBytes) k n a = m a := by
  induction n with
  | zero => rfl
  | succ n ih =>
    change ((linkBlocks m (page + headerBytes) k n).store64 (blockAddr page k n)
      (blockAddr page k (n + 1))) a = m a
    rw [store64_apply_of_not_mem (h n (Nat.lt_succ_self n)),
      ih fun t ht => h t (Nat.lt_succ_of_lt ht)]

/-- After `n` rounds of the linking loop every one of the first `n` blocks points to the
next block. -/
theorem linkBlocks_load (hk : k ≤ 8) (hn : n ≤ available k) (hpage : page + 0x1000 ≤ 2 ^ 64)
    {t : ℕ} (ht : t < n) :
    (linkBlocks m (page + headerBytes) k n).load64 (blockAddr page k t) =
      blockAddr page k (t + 1) := by
  induction n with
  | zero => omega
  | succ n ih =>
    have hlt : blockAddr page k (n + 1) < 2 ^ 64 := by
      have := block_in_page hk hn page
      have := eight_le_blockBytes k
      omega
    change ((linkBlocks m (page + headerBytes) k n).store64 (blockAddr page k n)
      (blockAddr page k (n + 1))).load64 (blockAddr page k t) = _
    rcases Nat.lt_succ_iff_lt_or_eq.mp ht with ht | rfl
    · -- an earlier block: the new store is elsewhere
      have happ := blocks_apart_of_ne (k := k) page ht.ne'
      have h8 := eight_le_blockBytes k
      rw [load64_store64_of_apart (by simp only [Apart] at happ ⊢; omega)]
      exact ih (by omega) ht
    · exact load64_store64_same_of_lt hlt

variable {h : Heap}

theorem expandBin_eq (k : ℕ) (hbelow : h.pages h.expanded + 0x1000 ≤ 2 ^ 64) :
    expandBin h k =
      { h with
        mem := (((linkBlocks ((h.mem.store64 (h.pages h.expanded + 8)
            (h.pages h.expanded + headerBytes)).store64 (h.pages h.expanded) (h.binHeaders k))
            (h.pages h.expanded + headerBytes) k (available k)).store64
              (blockAddr (h.pages h.expanded) k (available k)) 0).store
              (h.pages h.expanded + 16) 4 k)
        binHeaders := Function.update h.binHeaders k (h.pages h.expanded)
        expanded := h.expanded + 1 } := by
  -- the `head` field just written is read back as the base of the blocks
  have hbase : headerHead ((h.mem.store64 (h.pages h.expanded + 8)
      (h.pages h.expanded + headerBytes)).store64 (h.pages h.expanded) (h.binHeaders k))
      (h.pages h.expanded) = h.pages h.expanded + headerBytes := by
    unfold headerHead
    rw [load64_store64_of_apart (.inl le_rfl), load64_store64_same_of_lt]
    simp only [headerBytes]
    omega
  simp only [expandBin, kernelExpandHeap, mallocListAdd, hbase, blockAddr]

/-- **Specification of `expandBin`**: outside the new page nothing changes, and the new page
heads its bin with all its blocks free, in front of what the bin held before. -/
theorem expandBin_spec (hk : k ≤ 8) (hbelow : h.pages h.expanded + 0x1000 ≤ 2 ^ 64)
    (hbin : h.binHeaders k < 2 ^ 64) :
    (∀ a, ¬ (h.pages h.expanded ≤ a ∧ a < h.pages h.expanded + 0x1000) →
      (expandBin h k).mem a = h.mem a) ∧
    FreeFrom (expandBin h k).mem (h.pages h.expanded) k 0 ∧
    headerNext (expandBin h k).mem (h.pages h.expanded) = h.binHeaders k ∧
    (expandBin h k).mem.load (h.pages h.expanded + 16) 4 = k := by
  have hin := block_in_page hk le_rfl (h.pages h.expanded)
  have h8 := eight_le_blockBytes k
  rw [expandBin_eq k hbelow]
  dsimp only
  refine ⟨fun a ha => ?_, ⟨Nat.zero_le _, ?_, fun t _ ht => ?_, ?_⟩, ?_, ?_⟩
  · rw [store_apply_of_not_mem (by omega), store64_apply_of_not_mem (by omega),
      linkBlocks_frame (by simp only [headerBytes]; omega), store64_apply_of_not_mem (by omega),
      store64_apply_of_not_mem (by omega)]
  · -- the `head` word survives the loop, which starts behind the header
    unfold headerHead
    rw [load64_store_of_apart (by simp only [Apart]; omega),
      load64_store64_of_apart (by simp only [Apart]; omega),
      load64_congr fun a _ _ => linkBlocks_frame (by simp only [headerBytes]; omega),
      load64_store64_of_apart (by simp only [Apart]; omega), load64_store64_same_of_lt]
    · simp [blockAddr]
    · simp only [headerBytes]; omega
  · have ht_in := block_in_page hk ht.le (h.pages h.expanded)
    have happ := blocks_apart_of_ne (k := k) (h.pages h.expanded) ht.ne'
    rw [load64_store_of_apart (by simp only [Apart]; omega),
      load64_store64_of_apart (by simp only [Apart] at happ ⊢; omega),
      linkBlocks_load hk le_rfl hbelow ht]
  · rw [load64_store_of_apart (by simp only [Apart]; omega), load64_store64_same]
    rfl
  · unfold headerNext
    rw [load64_store_of_apart (by simp only [Apart]; omega),
      load64_store64_of_apart (by simp only [Apart]; omega),
      load64_congr fun a _ _ => linkBlocks_frame (by simp only [headerBytes]; omega),
      load64_store64_same_of_lt hbin]
  · rw [load_store_same]
    exact Nat.mod_eq_of_lt (by omega)

/-- Behind the first words of its blocks the new page stays as it was. -/
theorem expandBin_block {t a : ℕ} (hk : k ≤ 8) (hbelow : h.pages h.expanded + 0x1000 ≤ 2 ^ 64)
    (ht : t ≤ available k) (ha : blockAddr (h.pages h.expanded) k t + 8 ≤ a)
    (ha' : a < blockAddr (h.pages h.expanded) k t + 8 * 2 ^ k) :
    (expandBin h k).mem a = h.mem a := by
  have hin := block_in_page hk ht (h.pages h.expanded)
  have hword : ∀ t' ≤ available k, ¬ (blockAddr (h.pages h.expanded) k t' ≤ a ∧
      a < blockAddr (h.pages h.expanded) k t' + 8) := by
    intro t' _
    have h8 := eight_le_blockBytes k
    rcases eq_or_ne t' t with rfl | hne
    · omega
    · have happ := blocks_apart_of_ne (k := k) (h.pages h.expanded) hne
      unfold Apart at happ
      omega
  rw [expandBin_eq k hbelow]
  dsimp only
  rw [store_apply_of_not_mem (by omega), store64_apply_of_not_mem (hword _ le_rfl),
    linkBlocks_word fun t' ht' => hword t' ht'.le, store64_apply_of_not_mem (by omega),
    store64_apply_of_not_mem (by omega)]

end Expand

/-! ## Taking a block from a page -/

/-- **Specification of the end of `malloc`**: with the bin of the class headed by a page whose
blocks from `j` on are free, block `j` is returned, only the header of that page changes, and
the page stays in the bin exactly as long as it has another free block. -/
theorem mallocSmall_spec {h : Heap} {page k j : ℕ} (hk : k ≤ 8) (hbelow : page + 0x1000 ≤ 2 ^ 64)
    (hbin : h.binHeaders k = page) (hpage : page ≠ 0) (hnext : headerNext h.mem page = 0)
    (hfree : FreeFrom h.mem page k j) :
    (mallocSmall h k).1 = blockAddr page k j ∧
    (∀ a, ¬ (page ≤ a ∧ a < page + 16) → (mallocSmall h k).2.mem a = h.mem a) ∧
    (mallocSmall h k).2.pages = h.pages ∧ (mallocSmall h k).2.expanded = h.expanded ∧
    (∀ k', k' ≠ k → (mallocSmall h k).2.binHeaders k' = h.binHeaders k') ∧
    (j = available k ∧ (mallocSmall h k).2.binHeaders k = 0 ∨
      (mallocSmall h k).2.binHeaders k = page ∧ headerNext (mallocSmall h k).2.mem page = 0 ∧
        FreeFrom (mallocSmall h k).2.mem page k (j + 1)) := by
  have hj_in := block_in_page hk hfree.le page
  have h8 := eight_le_blockBytes k
  have hneeds := hfree.not_needsExpansion (h := h) hpage
  have hpop : popFromStack h page = (blockAddr page k j,
      { h with mem := h.mem.store64 (page + 8) (h.mem.load64 (blockAddr page k j)) }) := by
    simp only [popFromStack, hfree.head]
  have hhead : headerHead (h.mem.store64 (page + 8) (h.mem.load64 (blockAddr page k j))) page =
      h.mem.load64 (blockAddr page k j) :=
    load64_store64_same_of_lt (load64_lt _ _)
  have hnext' : headerNext (h.mem.store64 (page + 8) (h.mem.load64 (blockAddr page k j))) page =
      0 := by
    unfold headerNext
    rw [load64_store64_of_apart (.inr le_rfl)]
    exact hnext
  rcases hfree.le.lt_or_eq with hj | rfl
  · -- another block is free: the page stays at the head of the bin
    have hlink := hfree.link j le_rfl hj
    have hne : blockAddr page k (j + 1) ≠ 0 := by
      have := (block_in_page hk (Nat.succ_le_of_lt hj) page).1
      simp only [Nat.succ_eq_add_one] at this
      omega
    have hresult : mallocSmall h k = (blockAddr page k j,
        { h with mem := h.mem.store64 (page + 8) (blockAddr page k (j + 1)) }) := by
      rw [hlink] at hpop hhead
      simp [mallocSmall, hbin, hneeds, hpop, hhead, hne]
    rw [hlink] at hhead hnext'
    refine ⟨by rw [hresult], fun a ha => ?_, by rw [hresult], by rw [hresult], ?_, .inr ?_⟩
    · rw [hresult]
      exact store64_apply_of_not_mem (by omega)
    · simp [hresult]
    · rw [hresult]
      refine ⟨hbin, hnext', hj, hhead, fun t ht ht' => ?_, ?_⟩
      · have := (block_in_page hk ht'.le page).1
        exact (load64_store64_of_apart (by simp only [Apart]; omega)).trans
          (hfree.link t (by omega) ht')
      · have := (block_in_page hk le_rfl page).1
        exact (load64_store64_of_apart (by simp only [Apart]; omega)).trans hfree.last
  · -- the last block: the page leaves the bin
    have hresult : mallocSmall h k = (blockAddr page k (available k),
        { h with
          mem := (h.mem.store64 (page + 8) 0).store64 page 0
          binHeaders := Function.update h.binHeaders k 0 }) := by
      rw [hfree.last] at hpop hhead hnext'
      simp [mallocSmall, hbin, hneeds, hpop, hhead, mallocListDecouple, hnext']
    refine ⟨by rw [hresult], fun a ha => ?_, by rw [hresult], by rw [hresult], ?_, .inl ⟨rfl, ?_⟩⟩
    · rw [hresult]
      exact (store64_apply_of_not_mem (by omega)).trans (store64_apply_of_not_mem (by omega))
    · intro k' hk'
      simp [hresult, hk']
    · simp [hresult]

/-- When the bin cannot serve the request, `malloc` first takes a new page and then goes on as
above. -/
theorem mallocSmall_of_needs {h : Heap} {k : ℕ}
    (hneeds : mallocNeedsExpansion h (h.binHeaders k) = true)
    (hready : mallocNeedsExpansion (expandBin h k) ((expandBin h k).binHeaders k) = false) :
    mallocSmall h k = mallocSmall (expandBin h k) k := by
  simp only [mallocSmall, hneeds, hready, if_true, Bool.false_eq_true, if_false]

/-- A bin that can serve the request: the block comes from its first page, which leaves the bin
with its last block. -/
theorem mallocSmall_of_ready {h : Heap} {page k : ℕ} (hpage : h.binHeaders k = page)
    (hready : mallocNeedsExpansion h page = false) :
    mallocSmall h k = ((popFromStack h page).1,
      if headerHead (popFromStack h page).2.mem page = 0 then
        mallocListDecouple (popFromStack h page).2 k page
      else (popFromStack h page).2) := by
  subst hpage
  have hbin : (popFromStack h (h.binHeaders k)).2.binHeaders k = h.binHeaders k := rfl
  unfold mallocSmall
  simp only [hready, Bool.false_eq_true, if_false]
  rw [hbin]
  split_ifs
  · rfl
  · rfl

/-- What such a request does: only the header of the page changes, and the free stack goes on
behind the block. -/
theorem mallocSmall_ready_spec {h : Heap} {page k : ℕ} (hpage : h.binHeaders k = page)
    (hready : mallocNeedsExpansion h page = false) :
    (mallocSmall h k).1 = headerHead h.mem page ∧
    (∀ a, ¬ (page ≤ a ∧ a < page + 16) → (mallocSmall h k).2.mem a = h.mem a) ∧
    headerHead (mallocSmall h k).2.mem page = h.mem.load64 (headerHead h.mem page) ∧
    (mallocSmall h k).2.expanded = h.expanded := by
  rw [mallocSmall_of_ready hpage hready]
  have hpop : (popFromStack h page).2.mem =
      h.mem.store64 (page + 8) (h.mem.load64 (headerHead h.mem page)) := rfl
  have hframe : ∀ a, ¬ (page ≤ a ∧ a < page + 16) → (popFromStack h page).2.mem a = h.mem a := by
    intro a ha
    rw [hpop]
    exact store64_apply_of_not_mem (by omega)
  have hhead : headerHead (popFromStack h page).2.mem page =
      h.mem.load64 (headerHead h.mem page) := by
    rw [hpop]
    exact load64_store64_same_of_lt (load64_lt _ _)
  split_ifs
  · -- the page leaves the bin: its `next` word is cleared
    refine ⟨rfl, fun a ha => ?_, ?_, rfl⟩
    · exact (store64_apply_of_not_mem (by omega)).trans (hframe a ha)
    · exact (load64_store64_of_apart (.inl le_rfl)).trans hhead
  · exact ⟨rfl, hframe, hhead, rfl⟩

/-- At most one page is taken from the supply. -/
theorem mallocSmall_expanded (h : Heap) (k : ℕ) :
    (mallocSmall h k).2.expanded =
      h.expanded + if mallocNeedsExpansion h (h.binHeaders k) then 1 else 0 := by
  have hexpand : (expandBin h k).expanded = h.expanded + 1 := rfl
  cases hneeds : mallocNeedsExpansion h (h.binHeaders k) with
  | true =>
    simp only [mallocSmall, hneeds, if_true]
    split_ifs
    · exact hexpand
    · exact hexpand
  | false =>
    simp only [mallocSmall, hneeds, Bool.false_eq_true, if_false]
    split_ifs
    · rfl
    · rfl

/-! ## Giving a block back -/

/-- Masking a pointer into a page gives the page. -/
theorem mask_to_page {page p : ℕ} (haligned : page % 0x1000 = 0) (hbelow : page + 0x1000 ≤ 2 ^ 64)
    (hlo : page ≤ p) (hhi : p < page + 0x1000) : p &&& 0xFFFFFFFFFFFFF000 = page := by
  have hmask := land_field_mask (show 12 ≤ 64 by decide) p
  rw [show 2 ^ 64 - 2 ^ 12 = 0xFFFFFFFFFFFFF000 by decide] at hmask
  rw [hmask]
  omega

/-- What `free` makes of its parameter: the page the pointer lies in. -/
theorem free_mask {page p : ℕ} (haligned : page % 0x1000 = 0) (hbelow : page + 0x1000 ≤ 2 ^ 64)
    (hlo : page ≤ p) (hhi : p < page + 0x1000) :
    (if p &&& 0xFFF ≠ 0 then p &&& 0xFFFFFFFFFFFFF000 else p) = page := by
  have hoff : p &&& 0xFFF = p % 0x1000 := by
    rw [show 0xFFF = 2 ^ 12 - 1 by decide, Nat.and_two_pow_sub_one_eq_mod]
  split_ifs with h
  · exact mask_to_page haligned hbelow hlo hhi
  · rw [hoff] at h
    omega

/-- **Specification of `free`** on a block of a small class: what is pushed is the page. Only
the header of the page changes; the page becomes the head of its bin, in front of what the bin
held before, and of its own free stack. -/
theorem free_spec {h : Heap} {page p k : ℕ} (hk : k ≤ 8) (haligned : page % 0x1000 = 0)
    (hpage : page ≠ 0) (hbelow : page + 0x1000 ≤ 2 ^ 64) (hlo : page ≤ p)
    (hhi : p < page + 0x1000) (hsize : h.mem.load (page + 16) 4 = k) :
    (∀ a, ¬ (page ≤ a ∧ a < page + 16) → (free h p).mem a = h.mem a) ∧
    headerHead (free h p).mem page = page ∧
    headerNext (free h p).mem page = h.binHeaders k % 2 ^ 64 ∧
    (free h p).binHeaders = Function.update h.binHeaders k page ∧
    (free h p).pages = h.pages ∧ (free h p).expanded = h.expanded := by
  have hmask := free_mask haligned hbelow hlo hhi
  have hint : headerSize h.mem page = k := by
    rw [headerSize, hsize, toInt, if_pos (by omega)]
  -- the two stores of `push_to_stack`
  let m := (h.mem.store64 page (headerHead h.mem page)).store64 (page + 8) page
  have hhead : headerHead m page = page := load64_store64_same_of_lt (by omega)
  have hint' : headerSize m page = k := by
    rw [headerSize, load_store64_of_apart (by simp only [Apart]; omega),
      load_store64_of_apart (by simp only [Apart]; omega)]
    exact hint
  have hresult : free h p = { h with
      mem := m.store64 page (h.binHeaders k)
      binHeaders := Function.update h.binHeaders k page } := by
    have hsmall : ¬ (9 : ℤ) ≤ headerSize h.mem page := by rw [hint]; omega
    have hpush : pushToStack h page page = { h with mem := m } := rfl
    simp only [free, hmask, hsmall, if_false, hpush, hhead, ne_eq, hpage, not_false_eq_true,
      if_true, mallocListAdd, hint', Int.toNat_natCast]
  rw [hresult]
  refine ⟨fun a ha => ?_, ?_, ?_, rfl, rfl, rfl⟩
  · simp only [m]
    rw [store64_apply_of_not_mem (by omega), store64_apply_of_not_mem (by omega),
      store64_apply_of_not_mem (by omega)]
  · exact (load64_store64_of_apart (.inl le_rfl)).trans hhead
  · exact load64_store64_same ..

end Cutesugar.Kernel.Malloc
