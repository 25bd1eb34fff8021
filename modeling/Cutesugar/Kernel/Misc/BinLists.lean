import Cutesugar.Kernel.Misc.MallocBump

/-!
# The bin lists of the kernel heap

`malloc` drops a page from the list of its class when its free stack runs empty, and `free` is
there to put it back. `BinListShape` is what the two need of each other: lists without
repetition, on them the pages of the class with a free block and no others, and behind every
page a finite stack of its own free blocks.

`free` masks the pointer before it pushes it, so what it pushes is the header of the page. The
shape lasts exactly until the first call of `free`.
-/

namespace Cutesugar.Kernel.Malloc

open Lib Lib.Memory

/-! ## The shape -/

/-- The free stack of the page ends, is not empty and holds blocks of the page, each once. -/
def StackShape (m : Memory) (page k : ℕ) : Prop :=
  ∃ blocks : List ℕ, blocks ≠ [] ∧ Chain m.load64 (headerHead m page) blocks 0 ∧ blocks.Nodup ∧
    ∀ b ∈ blocks, ∃ j ≤ available k, b = blockAddr page k j

/-- Some block of the page is not allocated. -/
def HasFreeBlock (s : HeapRun) (page k : ℕ) : Prop :=
  ∃ j ≤ available k, ∀ x ∈ s.live, x.1 ≠ blockAddr page k j

/-- The list of class `k` ends, holds pages of the class, each once, and misses no page of the
class with a free block. -/
def BinShape (s : HeapRun) (k : ℕ) : Prop :=
  ∃ headers : List ℕ, Chain (headerNext s.heap.mem) (s.heap.binHeaders k) headers 0 ∧
    headers.Nodup ∧
    (∀ page ∈ headers, page ≠ 0 ∧ headerSize s.heap.mem page = k ∧
      StackShape s.heap.mem page k) ∧
    ∀ i < s.heap.expanded, headerSize s.heap.mem (s.heap.pages i) = k →
      HasFreeBlock s (s.heap.pages i) k → s.heap.pages i ∈ headers

/-- The shape of all nine lists. -/
def BinListShape (s : HeapRun) : Prop := ∀ k ≤ 8, BinShape s k

/-! ## The stack of a page nothing was freed in -/

theorem headerSize_eq_iff {m : Memory} {page k : ℕ} (hk : k ≤ 8) :
    headerSize m page = k ↔ pageClass m page = k := by
  have hlt : m.load (page + 16) 4 < 2 ^ 32 := load_lt ..
  simp only [headerSize, toInt, pageClass]
  split_ifs with h
  · exact Nat.cast_inj
  · constructor
    · intro heq
      omega
    · intro heq
      omega

/-- Behind block `j` the stack goes on through the blocks of the page in order. -/
theorem FreeFrom.chain_from {m : Memory} {page k j₀ n j : ℕ} (h : FreeFrom m page k j₀)
    (hj : j₀ ≤ j) (hn : j + n = available k) :
    Chain m.load64 (blockAddr page k j) ((List.range' j (n + 1)).map (blockAddr page k)) 0 := by
  induction n generalizing j with
  | zero =>
    obtain rfl : j = available k := hn
    exact ⟨rfl, h.last⟩
  | succ n ih =>
    refine ⟨rfl, ?_⟩
    rw [h.link j hj (by omega)]
    exact ih (by omega) (by omega)

theorem FreeFrom.stackShape {m : Memory} {page k j : ℕ} (h : FreeFrom m page k j) :
    StackShape m page k := by
  have hle := h.le
  refine ⟨(List.range' j (available k - j + 1)).map (blockAddr page k), ?_, ?_, ?_, ?_⟩
  · simp
  · rw [h.head]
    exact h.chain_from le_rfl (by omega)
  · exact (List.nodup_range').map fun i i' => blockAddr_inj
  · intro b hb
    obtain ⟨t, ht, rfl⟩ := List.mem_map.mp hb
    rw [List.mem_range'_1] at ht
    exact ⟨t, by omega, rfl⟩

/-! ## Runs without a free -/

section Shape

variable {S : PageSupply} {s : HeapRun} {b : Bump ℕ ℕ} {k page t : ℕ}

/-- What the abstract allocator handed out is live. -/
theorem Bumps.live_of_granted (h : Bumps S s b) (hg : b.Granted sizeClass k page t) :
    ∃ x ∈ s.live, x.1 = blockAddr (S.page page) k t ∧ sizeClass x.2 = k := by
  obtain ⟨g, hg, rfl, rfl, rfl⟩ := hg
  refine ⟨allocation S g, ?_, rfl, rfl⟩
  rw [h.live]
  exact List.mem_map_of_mem hg

/-- The class of a page is the class its blocks were handed out for. -/
theorem Bumps.pageClass_of_granted (h : Bumps S s b) (hpage : page < s.heap.expanded)
    (hg : b.Granted sizeClass k page t) (ht : t < blocksPerPage k) :
    k ≤ 8 ∧ pageClass s.heap.mem (S.page page) = k := by
  obtain ⟨x, hx, haddr, rfl⟩ := h.live_of_granted hg
  have hk := sizeClass_le_eight (h.inv.live x hx).1
  obtain ⟨i, hi, hclass, hlo, hhi, -⟩ := (h.inv.live x hx).block
  rw [blocksPerPage_eq hk] at ht
  have hin := block_in_page hk (Nat.le_of_lt_succ ht) (S.page page)
  have h8 := eight_le_blockBytes (sizeClass x.2)
  obtain rfl : i = page := by
    by_contra hne
    have happ := S.apart (hi.trans_le h.inv.count) (hpage.trans_le h.inv.count) hne
    unfold Apart at happ
    omega
  exact ⟨hk, hclass⟩

/-- A page with a free block is the current page of its class. -/
theorem Bumps.current_of_free (h : Bumps S s b) (hpage : page < s.heap.expanded)
    (hclass : pageClass s.heap.mem (S.page page) = k) (hfree : HasFreeBlock s (S.page page) k) :
    ∃ given, b.current k = some (page, given) ∧ given < blocksPerPage k := by
  have htaken : page < b.taken := h.taken ▸ hpage
  by_contra hnone
  have hfull : ∀ k' given, b.current k' = some (page, given) → blocksPerPage k' ≤ given := by
    intro k' given hcur
    by_contra hlt
    -- a current page has given out its first block, so its class is known
    obtain ⟨-, hpos, -, hgranted⟩ := h.tidy.current k' page given hcur
    obtain ⟨-, hclass'⟩ := h.pageClass_of_granted hpage (hgranted 0 hpos) (by omega)
    obtain rfl : k' = k := hclass'.symm.trans hclass
    exact hnone ⟨given, hcur, by omega⟩
  obtain ⟨k', hpos, hall⟩ := h.tidy.used_up htaken hfull
  obtain ⟨hk, hclass'⟩ := h.pageClass_of_granted hpage (hall 0 hpos) hpos
  obtain rfl : k' = k := hclass'.symm.trans hclass
  obtain ⟨j, hj, hdead⟩ := hfree
  obtain ⟨x, hx, haddr, -⟩ := h.live_of_granted
    (hall j (by rw [blocksPerPage_eq hk]; exact Nat.lt_succ_of_le hj))
  exact hdead x hx haddr

/-- Where the heap is a bump allocator, a list holds the current page of its class while that
page has a block left, and nothing else. -/
theorem Bumps.binListShape (h : Bumps S s b) : BinListShape s := by
  intro k hk
  rcases h.bins k hk with ⟨hbin, hfull⟩ | ⟨page, given, hcur, hlt, -⟩
  · refine ⟨[], hbin, List.nodup_nil, by simp, fun i hi hsize hfree => ?_⟩
    rw [h.inv.pages, headerSize_eq_iff hk] at hsize
    rw [h.inv.pages] at hfree
    obtain ⟨given, hcur, hlt⟩ := h.current_of_free hi hsize hfree
    exact absurd (hfull i given hcur) (by omega)
  · obtain ⟨hpage, hbin, hclass, hnext, hstack⟩ := h.freeFrom hk hcur hlt
    refine ⟨[S.page page], ⟨hbin, hnext⟩, List.nodup_singleton _, ?_, ?_⟩
    · intro p hp
      obtain rfl := List.mem_singleton.mp hp
      exact ⟨S.nonnull page (hpage.trans_le h.inv.count), (headerSize_eq_iff hk).mpr hclass,
        hstack.stackShape⟩
    · intro i hi hsize hfree
      rw [h.inv.pages, headerSize_eq_iff hk] at hsize
      rw [h.inv.pages] at hfree ⊢
      obtain ⟨given', hcur', -⟩ := h.current_of_free hi hsize hfree
      rw [hcur] at hcur'
      obtain ⟨rfl, -⟩ := Prod.mk.inj (Option.some.inj hcur')
      exact List.mem_singleton_self _

/-! ## The first free -/

/-- A stack that starts with its page is not a stack of blocks. -/
theorem not_binShape_of_self (hpage : page ≠ 0) (hbin : s.heap.binHeaders k = page)
    (hhead : headerHead s.heap.mem page = page) : ¬ BinShape s k := by
  rintro ⟨headers, hchain, -, hheaders, -⟩
  cases headers with
  | nil => exact hpage (hbin.symm.trans hchain)
  | cons p headers =>
    obtain ⟨rfl, -⟩ := hchain
    obtain ⟨-, -, blocks, hne, hstack, -, hblocks⟩ := hheaders _ (List.mem_cons_self ..)
    rw [hbin] at hstack hblocks
    cases blocks with
    | nil => exact hne rfl
    | cons c blocks =>
      obtain ⟨j, -, heq⟩ := hblocks c (List.mem_cons_self ..)
      have hself : page = blockAddr page k j := hhead.symm.trans (hstack.1.trans heq)
      rw [blockAddr_eq] at hself
      generalize j <<< (k + 3) = d at hself
      omega

/-- **What `free` leaves**: the list of the class starts with a page the stack of which starts
with the page itself. -/
theorem Bumps.free_breaks (h : Bumps S s b) {p : ℕ} (hlive : Served S s (.free p)) :
    ¬ BinListShape (s.step (.free p)) := by
  have hinv := h.inv.free hlive
  obtain ⟨x, hfind⟩ : ∃ x, s.live.find? (·.1 == p) = some x := by
    obtain ⟨x, hx, rfl⟩ := hlive
    exact Option.isSome_iff_exists.mp (List.find?_isSome.mpr ⟨x, hx, by simp⟩)
  have hfreed : sizeClass x.2 ∈ (s.step (.free p)).freed := by
    simp [HeapRun.step, hfind]
  obtain ⟨i, hi, hbin, hclass, hhead⟩ := hinv.spoilt _ hfreed
  have hk : sizeClass x.2 ≤ 8 := hclass ▸ hinv.sizes i hi
  intro hshape
  exact not_binShape_of_self (S.nonnull i (hi.trans_le hinv.count)) hbin hhead (hshape _ hk)

end Shape

/-! ## Whole runs -/

/-- Some state of the abstract allocator describes the heap. -/
def FollowsBump (S : PageSupply) (s : HeapRun) : Prop := ∃ b, Bumps S s b

/-- **Bin lists**: over runs of small requests, frees of live pointers and client writes, the
lists keep their shape exactly as long as nothing is freed. -/
theorem binListShape_iff (S : PageSupply) (m : Memory) (calls : List Call)
    (hrun : Along HeapRun.step (Served S) (HeapRun.start S m) calls) :
    Everywhere HeapRun.step BinListShape (HeapRun.start S m) calls ↔
      ∀ c ∈ calls, c.KeepsBlocks := by
  have hguard : Along HeapRun.step (fun _ c => c.KeepsBlocks) (HeapRun.start S m) calls ↔
      ∀ c ∈ calls, c.KeepsBlocks := along_const
  have hstart : FollowsBump S (HeapRun.start S m) := ⟨_, Bumps.start S m⟩
  rw [← hguard]
  refine everywhere_iff_along hrun hstart ?_ ?_ ?_
  · rintro s (size | p | ⟨a, v⟩) ⟨b, h⟩ hserved hkeep
    · exact ⟨_, h.malloc hserved⟩
    · exact absurd hkeep id
    · exact ⟨_, h.write hserved⟩
  · rintro s ⟨b, h⟩
    exact h.binListShape
  · rintro s (size | p | ⟨a, v⟩) ⟨b, h⟩ hserved hfrees
    · exact absurd trivial hfrees
    · exact h.free_breaks hserved
    · exact absurd trivial hfrees

/-- Two requests and a write keep the shape. -/
theorem binListShape_two_requests :
    Everywhere HeapRun.step BinListShape (HeapRun.start twoPages fun _ => 0)
      [.malloc 100, .malloc 1024, .write 4121 7] :=
  (binListShape_iff twoPages (fun _ => 0) _ (by decide)).mpr (by simp [Call.KeepsBlocks])

/-- One request and its free: the list of the class starts at the page `0x1000`, and so does the
free stack of that page. -/
theorem freed_page_heads_its_stack :
    Along HeapRun.step (Served twoPages) (HeapRun.start twoPages fun _ => 0)
      [.malloc 100, .free 4120] ∧
    ¬ BinListShape (run HeapRun.step (HeapRun.start twoPages fun _ => 0)
      [.malloc 100, .free 4120]) := by
  have hrun : Along HeapRun.step (Served twoPages) (HeapRun.start twoPages fun _ => 0)
      [.malloc 100, .free 4120] := by decide
  obtain ⟨hmalloc, hfree, -⟩ := hrun
  have hsim := (Bumps.start twoPages fun _ => 0).malloc hmalloc
  refine ⟨⟨hmalloc, hfree, trivial⟩, ?_⟩
  rw [run_cons, run_cons, run_nil]
  exact hsim.free_breaks hfree

end Cutesugar.Kernel.Malloc
