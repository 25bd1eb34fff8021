import Cutesugar.Kernel.Misc.MallocSafety
import Cutesugar.Lib.Bump

/-!
# The kernel heap without frees

Nine free lists over one supply of pages: as long as nothing is freed they are a bump allocator
for each size class. Block `j` of the current page answers the `j`-th request since the page was
taken, and the page is left when it has given out `blocksPerPage` blocks.

`Bumps` relates the heap to the abstract allocator; `Bumps.step` is the simulation step.
-/

namespace Cutesugar.Kernel.Malloc

open Lib Lib.Memory

/-! ## The abstract allocator -/

/-- The number of blocks a page of class `k` gives out. -/
def blocksPerPage (k : ℕ) : ℕ := 4072 >>> (k + 3)

theorem blocksPerPage_eq {k : ℕ} (hk : k ≤ 8) : blocksPerPage k = available k + 1 := by
  have hpos : 1 ≤ 4072 / 2 ^ (k + 3) := by
    rw [Nat.one_le_div_iff (by positivity)]
    calc 2 ^ (k + 3) ≤ 2 ^ 11 := Nat.pow_le_pow_right (by decide) (by omega)
      _ ≤ 4072 := by decide
  simp only [blocksPerPage, available, headerBytes, Nat.shiftRight_eq_div_pow, Nat.reduceSub]
  rw [Nat.add_comm 3 k]
  omega

theorem blockAddr_eq (page k j : ℕ) : blockAddr page k j = page + 24 + (j <<< (k + 3)) := by
  simp only [blockAddr, headerBytes, Nat.shiftLeft_eq, pow_add]
  ring

theorem blockAddr_inj {page k i j : ℕ} (h : blockAddr page k i = blockAddr page k j) : i = j := by
  by_contra hne
  have happ := blocks_apart_of_ne (k := k) page hne
  have := eight_le_blockBytes k
  unfold Apart at happ
  omega

/-- The sizes requested, in order. -/
def requests (calls : List Call) : List ℕ :=
  calls.filterMap fun c => match c with
    | .malloc size => some size
    | _ => none

/-- The bump allocator of the kernel heap after these calls. -/
def bumpAfter (calls : List Call) : Bump ℕ ℕ :=
  Bump.start.serveAll sizeClass blocksPerPage (requests calls)

/-- The allocation that a grant is on this supply of pages. -/
def allocation (S : PageSupply) (g : Grant ℕ) : ℕ × ℕ :=
  (blockAddr (S.page g.page) (sizeClass g.request) g.index, g.request)

/-! ## The calls -/

/-- Small requests that are given a page where they need one, frees of live pointers and writes
inside live blocks. -/
def Served (S : PageSupply) (s : HeapRun) : Call → Prop
  | .malloc size => size < 2048 ∧
      (mallocNeedsExpansion s.heap (s.heap.binHeaders (sizeClass size)) = true →
        s.heap.expanded < S.count)
  | .free p => ∃ x ∈ s.live, x.1 = p
  | .write a _ => ∃ x ∈ s.live, x.1 ≤ a ∧ a < x.1 + x.2

/-- The call frees nothing. -/
def Call.KeepsBlocks : Call → Prop
  | .free _ => False
  | _ => True

instance (S : PageSupply) (s : HeapRun) : (c : Call) → Decidable (Served S s c)
  | .malloc _ => inferInstanceAs (Decidable (_ ∧ (_ → _)))
  | .free _ => inferInstanceAs (Decidable (∃ x ∈ s.live, _))
  | .write _ _ => inferInstanceAs (Decidable (∃ x ∈ s.live, _))

instance : (c : Call) → Decidable c.KeepsBlocks
  | .malloc _ => .isTrue trivial
  | .free _ => .isFalse id
  | .write _ _ => .isTrue trivial

/-! ## The simulation relation -/

/-- The bin of class `k` is empty when the current page is used up; else it holds the current
page, the free stack of which starts behind the blocks given out. -/
def BinAt (S : PageSupply) (h : Heap) (b : Bump ℕ ℕ) (k : ℕ) : Prop :=
  (h.binHeaders k = 0 ∧
    ∀ page given, b.current k = some (page, given) → blocksPerPage k ≤ given) ∨
  ∃ page given, b.current k = some (page, given) ∧ given < blocksPerPage k ∧
    h.binHeaders k = S.page page ∧ headerHead h.mem (S.page page) = blockAddr (S.page page) k given

/-- The heap is the abstract allocator on the pages of the supply. -/
structure Bumps (S : PageSupply) (s : HeapRun) (b : Bump ℕ ℕ) : Prop where
  inv : Inv S s
  kept : s.freed = []
  taken : s.heap.expanded = b.taken
  live : s.live = b.grants.map (allocation S)
  tidy : b.Tidy sizeClass blocksPerPage
  bins : ∀ k ≤ 8, BinAt S s.heap b k

theorem Bumps.start (S : PageSupply) (m : Memory) : Bumps S (HeapRun.start S m) Bump.start where
  inv := Inv.start S m
  kept := rfl
  taken := rfl
  live := rfl
  tidy := Bump.tidy_start
  bins _ _ := .inl ⟨rfl, fun _ _ h => absurd h (by simp [Bump.start])⟩

section Simulation

variable {S : PageSupply} {s : HeapRun} {b : Bump ℕ ℕ}

/-- The bin of a class holds the current page exactly as the abstract allocator says. -/
theorem Bumps.freeFrom (h : Bumps S s b) {k page given : ℕ} (hk : k ≤ 8)
    (hcur : b.current k = some (page, given)) (hgiven : given < blocksPerPage k) :
    page < s.heap.expanded ∧ s.heap.binHeaders k = S.page page ∧
      pageClass s.heap.mem (S.page page) = k ∧ headerNext s.heap.mem (S.page page) = 0 ∧
      FreeFrom s.heap.mem (S.page page) k given := by
  have hpage : page < s.heap.expanded := by
    rw [h.taken]
    exact (h.tidy.current k page given hcur).1
  have hcount := hpage.trans_le h.inv.count
  obtain ⟨hbin, hhead⟩ : s.heap.binHeaders k = S.page page ∧
      headerHead s.heap.mem (S.page page) = blockAddr (S.page page) k given := by
    rcases h.bins k hk with ⟨-, hfull⟩ | ⟨page', given', hcur', -, hbin, hhead⟩
    · exact absurd (hfull page given hcur) (by omega)
    · rw [hcur] at hcur'
      obtain ⟨rfl, rfl⟩ := Prod.mk.inj (Option.some.inj hcur')
      exact ⟨hbin, hhead⟩
  have hok : BinOk S s.heap s.live k := h.inv.bins k hk (by simp [h.kept])
  rcases hok with h0 | ⟨i, hi, j, hbin', hclass, hnext, hfree, -⟩
  · exact absurd (hbin.symm.trans h0) (S.nonnull page hcount)
  · obtain rfl : i = page := by
      apply S.distinct i (hi.trans_le h.inv.count) page hcount
      rw [← hbin, hbin']
    -- the head of the stack tells how many blocks were given out
    obtain rfl : j = given := blockAddr_inj (hfree.head.symm.trans hhead)
    exact ⟨hi, hbin, hclass, hnext, hfree⟩

/-- **What a request gets**: the block at the place the abstract allocator chooses. Only the page
of that block changes, and it stays in its bin as long as it has another block. -/
theorem Bumps.mallocSmall (h : Bumps S s b) {size : ℕ} (hserved : Served S s (.malloc size))
    {page index : ℕ} (hplace : b.place blocksPerPage (sizeClass size) = (page, index)) :
    (Malloc.mallocSmall s.heap (sizeClass size)).1 =
      blockAddr (S.page page) (sizeClass size) index ∧
    (Malloc.mallocSmall s.heap (sizeClass size)).2.expanded =
      (b.serve sizeClass blocksPerPage size).taken ∧
    (∀ k, k ≠ sizeClass size →
      (Malloc.mallocSmall s.heap (sizeClass size)).2.binHeaders k = s.heap.binHeaders k) ∧
    (∀ i < s.heap.expanded, i ≠ page → ∀ a, S.page i ≤ a → a < S.page i + 0x1000 →
      (Malloc.mallocSmall s.heap (sizeClass size)).2.mem a = s.heap.mem a) ∧
    (index = available (sizeClass size) ∧
        (Malloc.mallocSmall s.heap (sizeClass size)).2.binHeaders (sizeClass size) = 0 ∨
      (Malloc.mallocSmall s.heap (sizeClass size)).2.binHeaders (sizeClass size) = S.page page ∧
        FreeFrom (Malloc.mallocSmall s.heap (sizeClass size)).2.mem (S.page page)
          (sizeClass size) (index + 1)) := by
  have hk := sizeClass_le_eight hserved.1
  have hserve := Bump.serve_taken_of_place hplace
  have hsupply := hserved.2
  generalize sizeClass size = k at hk hplace hsupply ⊢
  rcases Bump.place_cases b blocksPerPage k with ⟨page', given, hcur, hlt, heq⟩ | ⟨hfull, heq⟩
  · -- the current page has a block left
    obtain ⟨rfl, rfl⟩ := Prod.mk.inj (heq.symm.trans hplace)
    obtain ⟨hpage, hbin, -, hnext, hfree⟩ := h.freeFrom hk hcur hlt
    have hcount := hpage.trans_le h.inv.count
    obtain ⟨hptr, hframe, -, hexp, hother, hrest⟩ :=
      mallocSmall_spec hk (S.below _ hcount) hbin (S.nonnull _ hcount) hnext hfree
    refine ⟨hptr, ?_, hother, ?_, ?_⟩
    · rw [hexp, hserve, if_neg (by rw [← h.taken]; omega), h.taken]
    · exact fun i hi hne a ha ha' =>
        other_page_eq hcount (hi.trans_le h.inv.count) hframe hne ha ha' le_rfl
    · rcases hrest with hlast | ⟨hbin', -, hfree'⟩
      · exact .inl hlast
      · exact .inr ⟨hbin', hfree'⟩
  · -- a new page is taken
    obtain ⟨rfl, rfl⟩ := Prod.mk.inj (heq.symm.trans hplace)
    have hbin : s.heap.binHeaders k = 0 := by
      rcases h.bins k hk with ⟨h0, -⟩ | ⟨page, given, hcur, hlt, -⟩
      · exact h0
      · exact absurd (hfull page given hcur) (by omega)
    have hneeds : mallocNeedsExpansion s.heap (s.heap.binHeaders k) = true := by
      simp [mallocNeedsExpansion, hbin]
    have hcount : s.heap.expanded < S.count := hsupply hneeds
    have hpage : s.heap.pages s.heap.expanded = S.page b.taken := by rw [h.inv.pages, h.taken]
    have hbelow := S.below _ hcount
    have hnonnull := S.nonnull _ hcount
    rw [h.taken] at hbelow hnonnull
    obtain ⟨hframe, hfree, hnext, -⟩ :=
      expandBin_spec hk (hpage ▸ hbelow) (hbin.trans_lt (by decide))
    rw [hpage] at hframe hfree hnext
    rw [hbin] at hnext
    have hheap := expandBin_eq k (hpage ▸ hbelow)
    have hself : (expandBin s.heap k).binHeaders k = S.page b.taken := by
      rw [hheap]
      simp [hpage]
    have hready : mallocNeedsExpansion (expandBin s.heap k) ((expandBin s.heap k).binHeaders k) =
        false := by
      rw [hself]
      exact hfree.not_needsExpansion hnonnull
    obtain ⟨hptr, hframe', -, hexp, hother, hrest⟩ :=
      mallocSmall_spec hk hbelow hself hnonnull hnext hfree
    rw [mallocSmall_of_needs hneeds hready]
    refine ⟨hptr, ?_, ?_, ?_, ?_⟩
    · rw [hexp, hserve, if_pos rfl, ← h.taken, hheap]
    · intro k' hne
      rw [hother k' hne, hheap]
      simp [hne]
    · intro i hi hne a ha ha'
      have happ := S.apart (hi.trans hcount) hcount hi.ne
      rw [h.taken] at happ
      unfold Apart at happ
      rw [hframe' a (by omega), hframe a (by omega)]
    · rcases hrest with hlast | ⟨hbin', -, hfree'⟩
      · exact .inl hlast
      · exact .inr ⟨hbin', hfree'⟩

theorem Served.malloc_eq {size : ℕ} (h : Served S s (.malloc size)) :
    Malloc.malloc s.heap size = some (Malloc.mallocSmall s.heap (sizeClass size)) := by
  have hk := sizeClass_le_eight h.1
  simp [Malloc.malloc, show ¬ 9 ≤ sizeClass size by omega]

/-- **Simulation step**: a request is served by the heap as by the abstract allocator. -/
theorem Bumps.malloc (h : Bumps S s b) {size : ℕ} (hserved : Served S s (.malloc size)) :
    Bumps S (s.step (.malloc size)) (b.serve sizeClass blocksPerPage size) := by
  have hk := sizeClass_le_eight hserved.1
  have hcap : 0 < blocksPerPage (sizeClass size) := by
    rw [blocksPerPage_eq hk]
    exact Nat.succ_pos _
  obtain ⟨page, index, hplace⟩ : ∃ page index,
      b.place blocksPerPage (sizeClass size) = (page, index) := ⟨_, _, rfl⟩
  obtain ⟨hptr, hexp, hother, hframe, hrest⟩ := h.mallocSmall hserved hplace
  obtain ⟨-, hindex, -, honly⟩ := h.tidy.place hcap hplace
  have hinv := h.inv.malloc hserved.1 hserved.2 (by simp [h.kept])
  have hstep : s.step (.malloc size) =
      { s with
        heap := (Malloc.mallocSmall s.heap (sizeClass size)).2
        live := ((Malloc.mallocSmall s.heap (sizeClass size)).1, size) :: s.live } := by
    simp [HeapRun.step, hserved.malloc_eq]
  rw [hstep] at hinv ⊢
  generalize (Malloc.mallocSmall s.heap (sizeClass size)).1 = p at hptr hinv ⊢
  generalize (Malloc.mallocSmall s.heap (sizeClass size)).2 = h' at hexp hother hframe hrest hinv ⊢
  refine ⟨hinv, h.kept, hexp, ?_, h.tidy.serve hcap, fun k hk' => ?_⟩
  · rw [hptr, h.live]
    simp [allocation, hplace]
  · rcases eq_or_ne k (sizeClass size) with rfl | hne
    · have hself : (b.serve sizeClass blocksPerPage size).current (sizeClass size) =
          some (page, index + 1) := by
        rw [Bump.serve_current_self, hplace]
      rw [blocksPerPage_eq hk] at hindex
      rcases hrest with ⟨rfl, hbin⟩ | ⟨hbin, hfree⟩
      · -- the last block of the page
        left
        refine ⟨hbin, fun page' given hcur => ?_⟩
        rw [hself] at hcur
        obtain ⟨-, rfl⟩ := Prod.mk.inj (Option.some.inj hcur)
        exact (blocksPerPage_eq hk).le
      · have hle := hfree.le
        refine .inr ⟨page, index + 1, hself, ?_, hbin, hfree.head⟩
        rw [blocksPerPage_eq hk]
        omega
    · -- another class: its current page is another page
      have hsame : (b.serve sizeClass blocksPerPage size).current k = b.current k :=
        Bump.serve_current_of_ne hne
      rcases h.bins k hk' with ⟨h0, hfull⟩ | ⟨page', given, hcur, hlt, hbin, hhead⟩
      · left
        refine ⟨(hother k hne).trans h0, fun page' given hcur => ?_⟩
        rw [hsame] at hcur
        exact hfull page' given hcur
      · have hpage : page' < s.heap.expanded := (h.freeFrom hk' hcur hlt).1
        have hpage_ne : page' ≠ page := by
          rintro rfl
          exact hne (honly k given hcur)
        refine .inr ⟨page', given, hsame.trans hcur, hlt, (hother k hne).trans hbin, ?_⟩
        refine (load64_congr fun a ha ha' => ?_).trans hhead
        exact hframe page' hpage hpage_ne a (by omega) (by omega)

/-- A client write inside a live block leaves every free list alone. -/
theorem Bumps.write (h : Bumps S s b) {a : ℕ} {v : UInt8} (ha : Served S s (.write a v)) :
    Bumps S (s.step (.write a v)) b := by
  refine ⟨h.inv.write ha, h.kept, h.taken, h.live, h.tidy, fun k hk => ?_⟩
  rcases h.bins k hk with hempty | ⟨page, given, hcur, hlt, hbin, hhead⟩
  · exact .inl hempty
  · have hpage : page < s.heap.expanded := (h.freeFrom hk hcur hlt).1
    refine .inr ⟨page, given, hcur, hlt, hbin, ?_⟩
    refine (load64_congr fun c hc hc' => ?_).trans hhead
    exact Function.update_of_ne (h.inv.header_ne ha hpage (by omega) (by omega)) _ _

/-- **Simulation**: along a run that frees nothing the heap follows the abstract allocator. -/
theorem Bumps.run (h : Bumps S s b) {calls : List Call}
    (hrun : Along HeapRun.step (Served S) s calls) (hkeep : ∀ c ∈ calls, c.KeepsBlocks) :
    Bumps S (Lib.run HeapRun.step s calls)
      (b.serveAll sizeClass blocksPerPage (requests calls)) := by
  induction calls generalizing s b with
  | nil => exact h
  | cons c calls ih =>
    have hkeep' : ∀ c ∈ calls, c.KeepsBlocks := fun c hc => hkeep c (List.mem_cons_of_mem _ hc)
    cases c with
    | malloc size => exact ih (h.malloc hrun.1) hrun.2 hkeep'
    | free p => exact absurd (hkeep _ (List.mem_cons_self ..)) id
    | write a v => exact ih (h.write hrun.1) hrun.2 hkeep'

end Simulation

/-! ## The heap is a bump allocator -/

/-- **Refinement**: after any run of small requests and client writes that frees nothing, the next
request gets the block that the bump allocator chooses, on a new page of the supply exactly when
the bump allocator takes one. The block ends within its page and is larger than the request. -/
theorem malloc_refines_bump (S : PageSupply) (m : Memory) (calls : List Call)
    (hrun : Along HeapRun.step (Served S) (HeapRun.start S m) calls)
    (hkeep : ∀ c ∈ calls, c.KeepsBlocks) (size : ℕ)
    (hserved : Served S (run HeapRun.step (HeapRun.start S m) calls) (.malloc size)) :
    let s := run HeapRun.step (HeapRun.start S m) calls
    let b := bumpAfter calls
    let k := sizeClass size
    let (i, j) := b.place blocksPerPage k
    s.heap.expanded = b.taken ∧ k ≤ 8 ∧ j < 4072 >>> (k + 3) ∧
    (∃ h, Malloc.malloc s.heap size = some (S.page i + 24 + (j <<< (k + 3)), h) ∧
      h.expanded = (b.serve sizeClass blocksPerPage size).taken) ∧
    S.page i + 24 + (j <<< (k + 3)) + (8 <<< k) ≤ S.page i + 0x1000 ∧ size < 8 <<< k := by
  intro s b k
  have hsim : Bumps S s b := (Bumps.start S m).run hrun hkeep
  have hk : k ≤ 8 := sizeClass_le_eight hserved.1
  obtain ⟨i, j, hplace⟩ : ∃ i j, b.place blocksPerPage k = (i, j) := ⟨_, _, rfl⟩
  rw [hplace]
  have hcap : 0 < blocksPerPage k := by
    rw [blocksPerPage_eq hk]
    exact Nat.succ_pos _
  obtain ⟨hptr, hexp, -⟩ := hsim.mallocSmall hserved hplace
  obtain ⟨-, hj, -⟩ := hsim.tidy.place hcap hplace
  have hbytes : 8 <<< k = 8 * 2 ^ k := Nat.shiftLeft_eq ..
  refine ⟨hsim.taken, hk, hj, ⟨_, ?_, hexp⟩, ?_, ?_⟩
  · rw [hserved.malloc_eq, ← blockAddr_eq, ← hptr]
  · have hin := (block_in_page (j := j) hk (by rw [blocksPerPage_eq hk] at hj; omega) (S.page i)).2
    rw [← blockAddr_eq, hbytes]
    exact hin
  · rw [hbytes]
    exact size_lt_of_sizeClass (hserved.1.trans (by decide))

/-- Two blocks of 2048 bytes: the second one is on a page of its own. -/
theorem second_large_block_on_new_page :
    let s := run HeapRun.step (HeapRun.start twoPages fun _ => 0) [.malloc 1024, .write 4120 1]
    let b := bumpAfter [.malloc 1024, .write 4120 1]
    let k := sizeClass 1500
    let (i, j) := b.place blocksPerPage k
    s.heap.expanded = b.taken ∧ k ≤ 8 ∧ j < 4072 >>> (k + 3) ∧
    (∃ h, Malloc.malloc s.heap 1500 = some (twoPages.page i + 24 + (j <<< (k + 3)), h) ∧
      h.expanded = (b.serve sizeClass blocksPerPage 1500).taken) ∧
    twoPages.page i + 24 + (j <<< (k + 3)) + (8 <<< k) ≤ twoPages.page i + 0x1000 ∧
      1500 < 8 <<< k :=
  malloc_refines_bump twoPages (fun _ => 0) [.malloc 1024, .write 4120 1] (by decide)
    (by decide) 1500 (by decide)

end Cutesugar.Kernel.Malloc
