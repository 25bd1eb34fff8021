import Cutesugar.Kernel.Misc.MallocRuns

/-!
# The kernel heap before any block is given back

As long as nothing is freed, the free stacks hold blocks only and no large block is reused. If the
frames of the pool hold zeros, what a new block holds is then known byte by byte: the first word
is the link of the free stack, the others are zero.

## Structure

- `Fresh`: the layout of such a heap, with the bytes that nobody has written.
- `freeLink`, `Granted`: what a request of a small class finds in its block.
- `Fresh.mallocSmall`, `Fresh.mallocBig`, `Fresh.frame`: requests and writes.
-/

namespace Cutesugar.Kernel.Malloc

open Lib Lib.Memory

/-! ## The invariant -/

/-- A heap nothing was given back to. -/
structure Fresh (S : PageSupply) (role : ℕ → Role) (headers : List ℕ) (h : Heap)
    (live : List (ℕ × ℕ)) : Prop extends Layout S role headers h live where
  -- a free stack starts with a block
  heads : ∀ i < h.expanded, ∀ k, role i = .small k → headerHead h.mem (S.page i) % 0x1000 = 0 →
    headerHead h.mem (S.page i) = 0
  ahead : ∀ i, h.expanded ≤ i → i < S.count → ∀ a, S.page i ≤ a → a < S.page i + 0x1000 →
    h.mem a = 0
  blank : ∀ i < h.expanded, ∀ k, role i = .small k → ∀ t ≤ available k,
    (∀ x ∈ live, x.1 ≠ blockAddr (S.page i) k t) →
    ∀ a, blockAddr (S.page i) k t + 8 ≤ a → a < blockAddr (S.page i) k t + 8 * 2 ^ k → h.mem a = 0
  used : ∀ i ∈ headers, headerUsed h.mem (S.page i) = 1
  blocks : ∀ x ∈ live, x.1 % 0x1000 ≠ 0
  distinct : (live.map Prod.fst).Nodup

/-- Every frame of the supply holds zeros. -/
def PageSupply.Zeroed (S : PageSupply) (m : Memory) : Prop :=
  ∀ i < S.count, ∀ a, S.page i ≤ a → a < S.page i + 0x1000 → m a = 0

theorem Fresh.start (S : PageSupply) {m : Memory} (hzero : S.Zeroed m) :
    Fresh S (fun _ => .small 0) [] (HeapRun.start S m).heap (HeapRun.start S m).live where
  toLayout := Layout.start S m
  heads i hi := absurd hi (Nat.not_lt_zero i)
  ahead i _ hi := hzero i hi
  blank i hi := absurd hi (Nat.not_lt_zero i)
  used _ hi := absurd hi List.not_mem_nil
  blocks _ hx := absurd hx List.not_mem_nil
  distinct := List.nodup_nil

section Fresh

variable {S : PageSupply} {role : ℕ → Role} {headers : List ℕ} {h : Heap} {live : List (ℕ × ℕ)}
  {i k j size : ℕ}

/-- Blocks do not begin at a page boundary. -/
theorem blockAddr_unaligned (hi : i < S.count) (hk : k ≤ 8) (hj : j ≤ available k) :
    blockAddr (S.page i) k j % 0x1000 ≠ 0 := by
  have := S.aligned i hi
  have := block_in_page hk hj (S.page i)
  have := eight_le_blockBytes k
  omega

/-- A free stack that is not empty consists of the blocks from some block on. -/
theorem Fresh.freeFrom (hf : Fresh S role headers h live) (hi : i < h.expanded)
    (hr : role i = .small k) (hhead : headerHead h.mem (S.page i) ≠ 0) :
    ∃ j, FreeFrom h.mem (S.page i) k j ∧
      ∀ x ∈ live, ∀ t, j ≤ t → t ≤ available k → x.1 ≠ blockAddr (S.page i) k t := by
  refine (hf.small i hi k hr).head.resolve_left fun hlink => hhead ?_
  apply hf.heads i hi k hr
  rcases hlink with hzero | ⟨i', hi', -, heq⟩
  · rw [hzero]
  · rw [heq]
    exact S.aligned i' (hi'.trans_le hf.count)

/-- A live pointer of a small class is a block. -/
theorem Fresh.block (hf : Fresh S role headers h live) {x : ℕ × ℕ} (hx : x ∈ live)
    (hk : sizeClass x.2 ≤ 8) :
    ∃ i < h.expanded, role i = .small (sizeClass x.2) ∧
      ∃ j ≤ available (sizeClass x.2), x.1 = blockAddr (S.page i) (sizeClass x.2) j := by
  obtain ⟨i, hi, hr, haddr⟩ := hf.onSmall hx hk
  refine ⟨i, hi, hr, haddr.resolve_left fun heq => hf.blocks x hx ?_⟩
  rw [heq]
  exact S.aligned i (hi.trans_le hf.count)

/-- Every live pointer lies on a page obtained. -/
theorem Fresh.on_page (hf : Fresh S role headers h live) {x : ℕ × ℕ} (hx : x ∈ live) :
    ∃ i < h.expanded, S.page i ≤ x.1 ∧ x.1 < S.page i + 0x1000 := by
  rcases (hf.placed x hx).2 with hsmall | ⟨-, i, hi, -, -, -, haddr⟩
  · obtain ⟨i, hi, -, hlo, hhi, -⟩ := hsmall.in_page hf.toLayout
    exact ⟨i, hi, hlo, hhi⟩
  · refine ⟨i, hf.header_lt hi, ?_⟩
    simp only [headerBytes] at haddr
    omega

/-- No large block is free for reuse. -/
theorem Fresh.not_reusable (hf : Fresh S role headers h live) (c : ℕ) : ¬ Reusable h c := by
  rintro ⟨hfirst, -, hused, -⟩
  cases headers with
  | nil => exact hfirst hf.chain
  | cons i rest =>
    rw [hf.first_eq (i := i) rfl, hf.used i (List.mem_cons_self ..)] at hused
    exact absurd hused (by decide)

/-! ## Live blocks -/

/-- The address is in a live block of a small class. -/
def Inside (live : List (ℕ × ℕ)) (a : ℕ) : Prop :=
  ∃ x ∈ live, sizeClass x.2 ≤ 8 ∧ x.1 ≤ a ∧ a < x.1 + 8 * 2 ^ sizeClass x.2

/-- A live block and another block of a page do not meet. -/
theorem Fresh.apart_block (hf : Fresh S role headers h live) {x : ℕ × ℕ} (hx : x ∈ live)
    (hxk : sizeClass x.2 ≤ 8) (hi : i < h.expanded) (hr : role i = .small k) (hk : k ≤ 8)
    (hj : j ≤ available k) (hne : x.1 ≠ blockAddr (S.page i) k j) :
    Apart x.1 (8 * 2 ^ sizeClass x.2) (blockAddr (S.page i) k j) (8 * 2 ^ k) := by
  obtain ⟨i', hi', hr', j', hj', haddr⟩ := hf.block hx hxk
  have hin := block_in_page hk hj (S.page i)
  have hin' := block_in_page hxk hj' (S.page i')
  rcases eq_or_ne i' i with rfl | hpage
  · -- one page, hence one class and two blocks of one grid
    have hclass : sizeClass x.2 = k := Role.small.inj (hr'.symm.trans hr)
    rw [haddr, hclass]
    apply blocks_apart_of_ne
    rintro rfl
    exact hne (by rw [haddr, hclass])
  · have := hf.toLayout.apart hi' hi hpage
    unfold Apart at this ⊢
    omega

/-- Live blocks at different addresses do not meet. -/
theorem Fresh.apart_live (hf : Fresh S role headers h live) {x y : ℕ × ℕ} (hx : x ∈ live)
    (hy : y ∈ live) (hxk : sizeClass x.2 ≤ 8) (hyk : sizeClass y.2 ≤ 8) (hne : x.1 ≠ y.1) :
    Apart x.1 (8 * 2 ^ sizeClass x.2) y.1 (8 * 2 ^ sizeClass y.2) := by
  obtain ⟨i, hi, hr, j, hj, haddr⟩ := hf.block hy hyk
  rw [haddr] at hne ⊢
  exact hf.apart_block hx hxk hi hr hyk hj hne

/-- Live blocks lie behind the headers of their pages. -/
theorem Fresh.inside_page (hf : Fresh S role headers h live) {a : ℕ} (ha : Inside live a) :
    ∃ i < h.expanded, (∃ k, role i = .small k) ∧ S.page i + 24 ≤ a ∧ a < S.page i + 0x1000 := by
  obtain ⟨x, hx, hk, hlo, hhi⟩ := ha
  obtain ⟨i, hi, hr, j, hj, haddr⟩ := hf.block hx hk
  have hin := block_in_page hk hj (S.page i)
  exact ⟨i, hi, ⟨_, hr⟩, by omega, by omega⟩

/-! ## Writes -/

/-- **Frame lemma**: writes outside of headers, dead blocks and pages to come. -/
theorem Fresh.frame (hf : Fresh S role headers h live) {m : Memory}
    (hheader : ∀ i < h.expanded, (∃ k, role i = .small k) ∨ i ∈ headers →
      ∀ a, S.page i ≤ a → a < S.page i + 24 → m a = h.mem a)
    (hdead : ∀ i < h.expanded, ∀ k ≤ 8, role i = .small k → ∀ t ≤ available k,
      (∀ x ∈ live, x.1 ≠ blockAddr (S.page i) k t) → ∀ a, blockAddr (S.page i) k t ≤ a →
      a < blockAddr (S.page i) k t + 8 * 2 ^ k → m a = h.mem a)
    (hahead : ∀ i, h.expanded ≤ i → i < S.count → ∀ a, S.page i ≤ a → a < S.page i + 0x1000 →
      m a = h.mem a) : Fresh S role headers { h with mem := m } live where
  toLayout := by
    refine hf.toLayout.frame (fun i hi a ha ha' hrole => ?_)
      (fun i hi k hk hr _ _ t _ ht hnot => ?_) (List.Sublist.refl _)
    · exact hheader i hi hrole a ha (by omega)
    · have h8 := eight_le_blockBytes k
      exact load64_congr fun a ha ha' => hdead i hi k hk hr t ht hnot a ha (by omega)
  heads i hi k hr := by
    have hhead : headerHead m (S.page i) = headerHead h.mem (S.page i) :=
      load64_congr fun a ha ha' => hheader i hi (.inl ⟨k, hr⟩) a (by omega) (by omega)
    rw [hhead]
    exact hf.heads i hi k hr
  ahead i hi hi' a ha ha' := (hahead i hi hi' a ha ha').trans (hf.ahead i hi hi' a ha ha')
  blank i hi k hr t ht hnot a ha ha' := by
    have hk := (hf.small i hi k hr).le
    have hsame : m a = h.mem a := hdead i hi k hk hr t ht hnot a (by omega) ha'
    exact hsame.trans (hf.blank i hi k hr t ht hnot a ha ha')
  used i hi :=
    (hheader i (hf.header_lt hi) (.inr hi) _ (by omega) (by omega)).trans (hf.used i hi)
  blocks := hf.blocks
  distinct := hf.distinct

/-- Writes inside one live block. -/
theorem Fresh.writeBlock (hf : Fresh S role headers h live) {m : Memory} {x : ℕ × ℕ}
    (hx : x ∈ live) (hxk : sizeClass x.2 ≤ 8)
    (hm : ∀ a, ¬ (x.1 ≤ a ∧ a < x.1 + 8 * 2 ^ sizeClass x.2) → m a = h.mem a) :
    Fresh S role headers { h with mem := m } live := by
  obtain ⟨i₀, hi₀, hr₀, j₀, hj₀, haddr⟩ := hf.block hx hxk
  have hin := block_in_page hxk hj₀ (S.page i₀)
  have hother : ∀ i < S.count, i ≠ i₀ → ∀ a, S.page i ≤ a → a < S.page i + 0x1000 →
      m a = h.mem a := by
    intro i hi hne a ha ha'
    have := S.apart hi (hi₀.trans_le hf.count) hne
    apply hm
    unfold Apart at this
    omega
  refine hf.frame (fun i hi _ a ha ha' => ?_) (fun i hi k hk hr t ht hnot a ha ha' => ?_) ?_
  · rcases eq_or_ne i i₀ with rfl | hne
    · exact hm a (by omega)
    · exact hother i (hi.trans_le hf.count) hne a ha (by omega)
  · have happ := hf.apart_block hx hxk hi hr hk ht (hnot x hx)
    apply hm
    unfold Apart at happ
    omega
  · exact fun i hi hi' => hother i hi' (by omega)

/-- Writes of clients. -/
theorem Fresh.write {s : HeapRun} (hf : Fresh S role headers s.heap s.live) {a : ℕ} {b : UInt8}
    (ha : Writable S s a) :
    Fresh S role headers { s.heap with mem := Function.update s.heap.mem a b } s.live := by
  obtain ⟨⟨i₀, hi₀, hlo, hhi⟩, hheaders, hdead⟩ := hf.toLayout.writable_apart ha
  refine hf.frame (fun i hi hrole a' ha' ha'' => ?_) (fun i hi k hk hr t ht hnot a' ha' ha'' => ?_)
    fun i hi hi' a' ha' ha'' => ?_
  · have := hheaders i hi hrole
    exact Function.update_of_ne (by omega) _ _
  · -- no page was handed out itself
    have hpage : ∀ x ∈ s.live, x.1 ≠ S.page i := fun x hx heq =>
      hf.blocks x hx (heq ▸ S.aligned i (hi.trans_le hf.count))
    have := hdead i hi k hk hr t ht hnot fun _ => hpage
    exact Function.update_of_ne (by omega) _ _
  · have := S.apart (hi₀.trans_le hf.count) hi' (by omega)
    unfold Apart at this
    exact Function.update_of_ne (by omega) _ _

/-! ## Requests of the small classes -/

/-- The link in the block that the next request of class `k` gets: the address of the second block
where a new page is taken, and else what the first word of the first free block holds. -/
def freeLink (h : Heap) (k : ℕ) : ℕ :=
  if mallocNeedsExpansion h (h.binHeaders k) then
    if available k = 0 then 0 else blockAddr (h.pages h.expanded) k 1
  else h.mem.load64 (headerHead h.mem (h.binHeaders k))

/-- What a request of class `k` does to the memory: nothing behind the headers of the pages
obtained before, and the block it returns holds a link and zeros. -/
structure Granted (S : PageSupply) (h h' : Heap) (k p link : ℕ) : Prop where
  frame : ∀ i < h.expanded, ∀ a, S.page i + 24 ≤ a → a < S.page i + 0x1000 → h'.mem a = h.mem a
  link : h'.mem.load64 p = link
  zero : ∀ a, p + 8 ≤ a → a < p + 8 * 2 ^ k → h'.mem a = 0

/-- A new page of a small class. -/
theorem Fresh.expandBin (hf : Fresh S role headers h live) (hk : k ≤ 8)
    (hsupply : h.expanded < S.count) :
    Fresh S (Function.update role h.expanded (.small k)) headers (expandBin h k) live := by
  obtain ⟨hl, -, hfree, hexp⟩ := hf.toLayout.expandBin hk hsupply
  have hpage : h.pages h.expanded = S.page h.expanded := by rw [hf.pages]
  have hbelow := S.below _ hsupply
  have hzero := hf.ahead h.expanded le_rfl hsupply
  rw [← hpage] at hbelow
  obtain ⟨hframe, -⟩ := expandBin_spec hk hbelow (hf.link_lt (hf.bins k hk))
  have hblock := fun (t a : ℕ) => expandBin_block (h := h) (t := t) (a := a) hk hbelow
  rw [hpage] at hframe hblock
  have hother : ∀ i < S.count, i ≠ h.expanded → ∀ a, S.page i ≤ a → a < S.page i + 0x1000 →
      (Malloc.expandBin h k).mem a = h.mem a := by
    intro i hi hne a ha ha'
    have := S.apart hi hsupply hne
    apply hframe
    unfold Apart at this
    omega
  have hrole : ∀ i < h.expanded, Function.update role h.expanded (.small k) i = role i :=
    fun i hi => Function.update_of_ne hi.ne _ _
  refine { toLayout := hl, heads := ?_, ahead := ?_, blank := ?_, used := ?_, blocks := hf.blocks,
           distinct := hf.distinct }
  · intro i hi k' hr
    rw [hexp] at hi
    rcases Nat.lt_succ_iff_lt_or_eq.mp hi with hi | rfl
    · rw [hrole i hi] at hr
      have hhead : headerHead (Malloc.expandBin h k).mem (S.page i) = headerHead h.mem (S.page i) :=
        load64_congr fun a ha ha' =>
          hother i (hi.trans hsupply) hi.ne a (by omega) (by omega)
      rw [hhead]
      exact hf.heads i hi k' hr
    · rw [hfree.head]
      exact fun halign => absurd halign (blockAddr_unaligned hsupply hk (Nat.zero_le _))
  · intro i hi hi' a ha ha'
    rw [hother i hi' (by omega) a ha ha']
    exact hf.ahead i (by omega) hi' a ha ha'
  · intro i hi k' hr t ht hnot a ha ha'
    rw [hexp] at hi
    rcases Nat.lt_succ_iff_lt_or_eq.mp hi with hi | rfl
    · rw [hrole i hi] at hr
      have hin := block_in_page (hf.small i hi k' hr).le ht (S.page i)
      rw [hother i (hi.trans hsupply) hi.ne a (by omega) (by omega)]
      exact hf.blank i hi k' hr t ht hnot a ha ha'
    · -- behind the links the new page is as it came
      rw [Function.update_self] at hr
      obtain rfl := Role.small.inj hr
      have hin := block_in_page hk ht (S.page h.expanded)
      rw [hblock t a ht ha ha']
      exact hzero a (by omega) (by omega)
  · intro i hi
    have hlt := hf.header_lt hi
    have hsame := hother i (hlt.trans hsupply) hlt.ne (S.page i + 20) (by omega) (by omega)
    exact hsame.trans (hf.used i hi)

/-- A request that the bin can serve. -/
theorem Fresh.mallocSmall_ready (hf : Fresh S role headers h live) (hsize : size < 2 ^ 64)
    (hk : sizeClass size = k) (hk8 : k ≤ 8)
    (hready : mallocNeedsExpansion h (h.binHeaders k) = false) :
    Fresh S role headers (mallocSmall h k).2 (((mallocSmall h k).1, size) :: live) ∧
      Granted S h (mallocSmall h k).2 k (mallocSmall h k).1
        (h.mem.load64 (headerHead h.mem (h.binHeaders k))) := by
  subst hk
  have hl := hf.toLayout.mallocSmall_ready hsize hk8 hready
  obtain ⟨i, hi, hr, hpage, hhead⟩ := hf.ready hk8 hready
  obtain ⟨j, hfree, hnot⟩ := hf.freeFrom hi hr hhead
  rw [hpage] at hready ⊢
  obtain ⟨hptr, hframe, hnewHead, hexp⟩ := mallocSmall_ready_spec hpage hready
  generalize (mallocSmall h (sizeClass size)).1 = p at *
  generalize (mallocSmall h (sizeClass size)).2 = h' at *
  have hiS := hi.trans_le hf.count
  rw [hfree.head] at hptr hnewHead
  subst hptr
  have hin := block_in_page hk8 hfree.le (S.page i)
  -- only the header of the page changes
  have hother : ∀ i' < S.count, i' ≠ i → ∀ a, S.page i' ≤ a → a < S.page i' + 0x1000 →
      h'.mem a = h.mem a := by
    intro i' hi' hne a ha ha'
    have := S.apart hi' hiS hne
    apply hframe
    unfold Apart at this
    omega
  have hbehind : ∀ i' < h.expanded, ∀ a, S.page i' + 24 ≤ a → a < S.page i' + 0x1000 →
      h'.mem a = h.mem a := by
    intro i' hi' a ha ha'
    rcases eq_or_ne i' i with rfl | hne
    · exact hframe a (by omega)
    · exact hother i' (hi'.trans_le hf.count) hne a (by omega) ha'
  refine ⟨{ toLayout := hl, heads := ?_, ahead := ?_, blank := ?_, used := ?_, blocks := ?_,
            distinct := ?_ }, { frame := hbehind, link := ?_, zero := ?_ }⟩
  · intro i' hi' k' hr'
    rw [hexp] at hi'
    rcases eq_or_ne i' i with rfl | hne
    · -- the free stack goes on with the next block, or ends
      rw [hnewHead]
      rcases hfree.le.lt_or_eq with hj | rfl
      · rw [hfree.link j le_rfl hj]
        exact fun halign => absurd halign (blockAddr_unaligned hiS hk8 hj)
      · exact fun _ => hfree.last
    · have hsame : headerHead h'.mem (S.page i') = headerHead h.mem (S.page i') :=
        load64_congr fun a ha ha' =>
          hother i' (hi'.trans_le hf.count) hne a (by omega) (by omega)
      rw [hsame]
      exact hf.heads i' hi' k' hr'
  · intro i' hi' hi'' a ha ha'
    rw [hexp] at hi'
    rw [hother i' hi'' (by omega) a ha ha']
    exact hf.ahead i' hi' hi'' a ha ha'
  · intro i' hi' k' hr' t ht hdead a ha ha'
    rw [hexp] at hi'
    have hin' := block_in_page (hf.small i' hi' k' hr').le ht (S.page i')
    rw [hbehind i' hi' a (by omega) (by omega)]
    exact hf.blank i' hi' k' hr' t ht (fun x hx => hdead x (List.mem_cons_of_mem _ hx)) a ha ha'
  · intro i' hi'
    have hlt := hf.header_lt hi'
    have hne := (hf.small_ne_header hr hi').symm
    -- headers of large blocks are on other pages
    have hsame := hother i' (hlt.trans_le hf.count) hne (S.page i' + 20) (by omega) (by omega)
    exact hsame.trans (hf.used i' hi')
  · intro x hx
    rcases List.mem_cons.mp hx with rfl | hx
    · exact blockAddr_unaligned hiS hk8 hfree.le
    · exact hf.blocks x hx
  · refine List.nodup_cons.mpr ⟨fun hmem => ?_, hf.distinct⟩
    obtain ⟨x, hx, heq⟩ := List.mem_map.mp hmem
    exact hnot x hx j le_rfl hfree.le heq
  · rw [hfree.head]
    -- the link that the client finds in its block
    have h8 := eight_le_blockBytes (sizeClass size)
    exact load64_congr fun a ha ha' => hbehind i hi a (by omega) (by omega)
  · intro a ha ha'
    rw [hbehind i hi a (by omega) (by omega)]
    exact hf.blank i hi _ hr j hfree.le (fun x hx => hnot x hx j le_rfl hfree.le) a ha ha'

/-- **A request of a small class** gets a block with a link and zeros. -/
theorem Fresh.mallocSmall (hf : Fresh S role headers h live) (hsize : size < 2 ^ 64)
    (hk : sizeClass size = k) (hk8 : k ≤ 8) (hsupply : (mallocSmall h k).2.expanded ≤ S.count) :
    (∃ role', Fresh S role' headers (mallocSmall h k).2 (((mallocSmall h k).1, size) :: live)) ∧
      Granted S h (mallocSmall h k).2 k (mallocSmall h k).1 (freeLink h k) := by
  cases hneeds : mallocNeedsExpansion h (h.binHeaders k) with
  | false =>
    obtain ⟨hf', hgrant⟩ := hf.mallocSmall_ready hsize hk hk8 hneeds
    rw [freeLink, hneeds]
    exact ⟨⟨role, hf'⟩, hgrant⟩
  | true =>
    have hlt : h.expanded < S.count := by
      rw [mallocSmall_expanded, hneeds] at hsupply
      exact hsupply
    have hf₁ := hf.expandBin hk8 hlt
    obtain ⟨-, hbin, hfree, hexp⟩ := hf.toLayout.expandBin hk8 hlt
    have hready : mallocNeedsExpansion (Malloc.expandBin h k)
        ((Malloc.expandBin h k).binHeaders k) = false := by
      rw [hbin]
      exact hfree.not_needsExpansion (S.nonnull _ hlt)
    obtain ⟨hf', hgrant⟩ := hf₁.mallocSmall_ready hsize hk hk8 hready
    rw [← mallocSmall_of_needs hneeds hready] at hf' hgrant
    have hpage : h.pages h.expanded = S.page h.expanded := by rw [hf.pages]
    have hbelow := S.below _ hlt
    rw [← hpage] at hbelow
    obtain ⟨hframe, -⟩ := expandBin_spec hk8 hbelow (hf.link_lt (hf.bins k hk8))
    rw [hpage] at hframe
    refine ⟨⟨_, hf'⟩, fun i hi a ha ha' => ?_, ?_, hgrant.zero⟩
    · have := S.apart (hi.trans hlt) hlt hi.ne
      rw [hgrant.frame i (by omega) a ha ha']
      apply hframe
      unfold Apart at this
      omega
    · rw [hgrant.link, freeLink, hneeds, hbin, hfree.head, if_pos rfl, hpage]
      -- the first block of the new page is linked to the second, if there is one
      split_ifs with hone
      · have hlast := hfree.last
        rwa [hone] at hlast
      · exact hfree.link 0 le_rfl (Nat.pos_of_ne_zero hone)

/-- The pages a small request takes. -/
theorem pagesNeeded_small {h : Heap} (hk : sizeClass size ≤ 8) :
    (Malloc.mallocSmall h (sizeClass size)).2.expanded = h.expanded + pagesNeeded h size := by
  rw [pagesNeeded, if_neg (by omega), mallocSmall_expanded]

/-! ## Requests of the large classes -/

/-- **A request of a large class** takes new pages. -/
theorem Fresh.mallocBig (hf : Fresh S role headers h live) (hsize : size < 2 ^ 64)
    (hc : 9 ≤ sizeClass size) (hsupply : h.expanded + pagesNeeded h size ≤ S.count) :
    ∃ role' p h', mallocBig h (sizeClass size) = some (p, h') ∧
      Fresh S role' (headers ++ [h.expanded]) h' ((p, size) :: live) ∧
      ∀ i < h.expanded, (∃ k, role i = .small k) → ∀ a, S.page i ≤ a → a < S.page i + 0x1000 →
        h'.mem a = h.mem a := by
  have hreuse := hf.not_reusable (sizeClass size)
  have hc' : sizeClass size < 2 ^ 31 := (sizeClass_le hsize).trans_lt (by decide)
  rw [pagesNeeded, if_pos hc, if_neg hreuse] at hsupply
  obtain ⟨m, first, hnew, hbig⟩ := hf.toLayout.mallocBig_new hc hc' (by omega) hreuse
  have hl := hf.toLayout.addBig hsize hc (by omega) hnew
  have hnot : ∀ i, (∃ k, role i = .small k) → i ∉ headers := by
    rintro i ⟨k, hr⟩ hmem
    exact hf.small_ne_header hr hmem rfl
  have hold : ∀ i k, (if h.expanded ≤ i then Role.big h.expanded (sizeClass size) else role i) =
      .small k → i < h.expanded ∧ role i = .small k := by
    intro i k hr
    split_ifs at hr with hle
    exact ⟨Nat.not_le.mp hle, hr⟩
  refine ⟨fun i => if h.expanded ≤ i then .big h.expanded (sizeClass size) else role i, _, _, hbig,
    ?_, fun i hi hr a ha ha' => hnew.frame i hi a ha ha' (.inl (hnot i hr))⟩
  refine { toLayout := hl, heads := ?_, ahead := ?_, blank := ?_, used := ?_, blocks := ?_,
           distinct := ?_ }
  · intro i _ k hr
    obtain ⟨hi, hr⟩ := hold i k hr
    have hhead : headerHead m (S.page i) = headerHead h.mem (S.page i) :=
      load64_congr fun a ha ha' =>
        hnew.frame i hi a (by omega) (by omega) (.inl (hnot i ⟨k, hr⟩))
    rw [hhead]
    exact hf.heads i hi k hr
  · intro i hi hi' a ha ha'
    dsimp only at hi
    exact (hnew.behind i (by omega) hi' a ha ha').trans (hf.ahead i (by omega) hi' a ha ha')
  · intro i _ k hr t ht hdead a ha ha'
    obtain ⟨hi, hr⟩ := hold i k hr
    have hin := block_in_page (hf.small i hi k hr).le ht (S.page i)
    refine (hnew.frame i hi a (by omega) (by omega) (.inl (hnot i ⟨k, hr⟩))).trans ?_
    exact hf.blank i hi k hr t ht (fun x hx => hdead x (List.mem_cons_of_mem _ hx)) a ha ha'
  · intro i hi
    rcases List.mem_append.mp hi with hi | hi
    · exact (hnew.frame i (hf.header_lt hi) (S.page i + 20) (by omega) (by omega)
        (.inr (by omega))).trans (hf.used i hi)
    · rw [List.mem_singleton.mp hi]
      exact hnew.used
  · intro x hx
    rcases List.mem_cons.mp hx with rfl | hx
    · have := S.aligned h.expanded (by omega)
      simp only [headerBytes]
      omega
    · exact hf.blocks x hx
  · refine List.nodup_cons.mpr ⟨fun hmem => ?_, hf.distinct⟩
    -- live pointers lie on the pages obtained before
    obtain ⟨x, hx, heq⟩ := List.mem_map.mp hmem
    obtain ⟨i, hi, hlo, hhi⟩ := hf.on_page hx
    have := S.apart (show i < S.count by omega) (show h.expanded < S.count by omega) hi.ne
    simp only [Apart, headerBytes] at *
    omega

end Fresh

end Cutesugar.Kernel.Malloc
