import Cutesugar.Kernel.Misc.MallocLarge

/-!
# Runs of the kernel heap with requests of any size

Clients call `malloc` with any size, `free` live pointers and write into their live blocks, in any
order. Two properties are followed along their runs: the live large blocks do not meet, and the
header a pointer leads back to records the class of the request.

Both fail. A free first block is handed out again and again, since a reused block is not marked
as used, and the header of the second large block records the class 0.

## Structure

- `Proper`, `Contained`: what clients do, and that pages last and writes keep to their blocks.
- `Settled.step`: every call keeps the layout, as long as a reused block is not live and `free`
  finds the class of a large block.
- `largeDisjoint_everywhere`: the large blocks are disjoint.
- `classesAgree_everywhere`: the headers agree with the requests.
-/

namespace Cutesugar.Kernel.Malloc

open Lib Lib.Memory

/-! ## The calls -/

/-- The pages a request takes from the supply. -/
def pagesNeeded (h : Heap) (size : ℕ) : ℕ :=
  if 9 ≤ sizeClass size then
    if Reusable h (sizeClass size) then 0 else 1 + extraPages (sizeClass size)
  else if mallocNeedsExpansion h (h.binHeaders (sizeClass size)) then 1 else 0

/-- The pages of a block behind the page its pointer lies in. -/
def pagesBehind (x : ℕ × ℕ) : ℕ :=
  if 9 ≤ sizeClass x.2 then extraPages (sizeClass x.2) else 0

/-- An address inside a live block, behind the header of the page that its pointer lies in, and on a
page of the block. -/
def Writable (S : PageSupply) (s : HeapRun) (a : ℕ) : Prop :=
  ∃ x ∈ s.live, x.1 ≤ a ∧ a < x.1 + x.2 ∧ pageOf x.1 + headerBytes ≤ a ∧
    ∃ i < s.heap.expanded, S.page i = pageOf x.1 ∧
      ∃ j ≤ pagesBehind x, S.page (i + j) ≤ a ∧ a < S.page (i + j) + 0x1000

/-- What clients do: requests of any `size_t`, frees of live pointers and writes into live blocks. -/
def Proper (s : HeapRun) : Call → Prop
  | .malloc size => size < 2 ^ 64
  | .free p => ∃ x ∈ s.live, x.1 = p
  | .write a _ => ∃ x ∈ s.live, x.1 ≤ a ∧ a < x.1 + x.2

/-- Pages last for the request; a write stays behind the header and on the pages of its block. -/
def Contained (S : PageSupply) (s : HeapRun) : Call → Prop
  | .malloc size => s.heap.expanded + pagesNeeded s.heap size ≤ S.count
  | .free _ => True
  | .write a _ => Writable S s a

/-- Calls of both kinds. -/
def Admissible (S : PageSupply) (s : HeapRun) (c : Call) : Prop := Proper s c ∧ Contained S s c

instance (S : PageSupply) (s : HeapRun) (a : ℕ) : Decidable (Writable S s a) :=
  inferInstanceAs (Decidable (∃ x ∈ s.live, _ ∧ _ ∧ _ ∧ ∃ i < s.heap.expanded, _ ∧
    ∃ j ≤ pagesBehind x, _ ∧ _))

instance (s : HeapRun) : (c : Call) → Decidable (Proper s c)
  | .malloc _ => inferInstanceAs (Decidable (_ < _))
  | .free _ => inferInstanceAs (Decidable (∃ x ∈ s.live, _))
  | .write _ _ => inferInstanceAs (Decidable (∃ x ∈ s.live, _))

instance (S : PageSupply) (s : HeapRun) : (c : Call) → Decidable (Contained S s c)
  | .malloc _ => inferInstanceAs (Decidable (_ ≤ _))
  | .free _ => .isTrue trivial
  | .write a _ => inferInstanceAs (Decidable (Writable S s a))

instance (S : PageSupply) (s : HeapRun) (c : Call) : Decidable (Admissible S s c) :=
  inferInstanceAs (Decidable (_ ∧ _))

/-- The number of pages of the request fits in an `int`. -/
def Call.Fits : Call → Prop
  | .malloc size => size < 2 ^ 41
  | _ => True

instance : (c : Call) → Decidable c.Fits
  | .malloc _ => inferInstanceAs (Decidable (_ < _))
  | .free _ => .isTrue trivial
  | .write _ _ => .isTrue trivial

/-- A request of the classes from 9 on. -/
def Call.Large : Call → Prop
  | .malloc size => 9 ≤ sizeClass size
  | _ => False

/-- No large block with a small class in its header is freed: only the first large block is. -/
def FreesFirst (s : HeapRun) : Call → Prop
  | .free p => ∀ x ∈ large s.live, x.1 = p → 9 ≤ headerSize s.heap.mem (pageOf p)
  | _ => True

/-- No large request is served from the first large block while an earlier one served from it is
live. -/
def ServedOnce (s : HeapRun) : Call → Prop
  | .malloc size => 9 ≤ sizeClass size → Reusable s.heap (sizeClass size) →
      ∀ x ∈ large s.live, x.1 ≠ headerHead s.heap.mem s.heap.firstBigBinHeader
  | _ => True

/-- A large request is made only while there is no large block. -/
def FirstLarge (s : HeapRun) (c : Call) : Prop :=
  c.Large → s.heap.firstBigBinHeader = 0

instance : (c : Call) → Decidable c.Large
  | .malloc _ => inferInstanceAs (Decidable (_ ≤ _))
  | .free _ => .isFalse id
  | .write _ _ => .isFalse id

instance (s : HeapRun) : (c : Call) → Decidable (FreesFirst s c)
  | .malloc _ => .isTrue trivial
  | .free _ => inferInstanceAs (Decidable (∀ x ∈ large s.live, _))
  | .write _ _ => .isTrue trivial

instance (s : HeapRun) : (c : Call) → Decidable (ServedOnce s c)
  | .malloc size => inferInstanceAs (Decidable (9 ≤ sizeClass size → _))
  | .free _ => .isTrue trivial
  | .write _ _ => .isTrue trivial

instance (s : HeapRun) (c : Call) : Decidable (FirstLarge s c) :=
  inferInstanceAs (Decidable (c.Large → _))

/-! ## One call -/

/-- The free stack of no page starts with the first block of the page: it has been handed out. -/
def FirstTaken (S : PageSupply) (role : ℕ → Role) (h : Heap) : Prop :=
  ∀ i < h.expanded, ∀ k, role i = .small k →
    headerHead h.mem (S.page i) ≠ blockAddr (S.page i) k 0

/-- The layout between two calls. -/
structure Settled (S : PageSupply) (role : ℕ → Role) (headers : List ℕ) (h : Heap)
    (live : List (ℕ × ℕ)) : Prop extends Layout S role headers h live where
  taken : FirstTaken S role h

section Steps

variable {S : PageSupply} {role : ℕ → Role} {headers : List ℕ} {h : Heap} {live : List (ℕ × ℕ)}
  {s : HeapRun}

theorem Settled.start (S : PageSupply) (m : Memory) :
    Settled S (fun _ => .small 0) [] (HeapRun.start S m).heap (HeapRun.start S m).live where
  toLayout := Layout.start S m
  taken i hi := absurd hi (Nat.not_lt_zero i)

/-- A link is no block. -/
theorem Layout.link_ne_block (hl : Layout S role headers h live) {i k a : ℕ} (hlink : Link S role h k a)
    (hi : i < h.expanded) (hk : k ≤ 8) : a ≠ blockAddr (S.page i) k 0 := by
  rcases hlink with rfl | ⟨i', hi', -, rfl⟩
  · simp only [blockAddr, headerBytes]
    omega
  · exact hl.page_ne_block hi' hi hk (Nat.zero_le _)

/-- The blocks of a page have different addresses. -/
theorem blockAddr_ne {page k t t' : ℕ} (hne : t ≠ t') : blockAddr page k t ≠ blockAddr page k t' := by
  have happ := blocks_apart_of_ne (k := k) page hne
  have := eight_le_blockBytes k
  unfold Apart at happ
  omega

/-- What is next to the top of the free stack of a page is not its first block. -/
theorem Layout.next_ne_block (hl : Layout S role headers h live) {i k : ℕ} (hi : i < h.expanded)
    (hr : role i = .small k) (hhead : headerHead h.mem (S.page i) ≠ 0) :
    h.mem.load64 (headerHead h.mem (S.page i)) ≠ blockAddr (S.page i) k 0 := by
  have hp := hl.small i hi k hr
  rcases hp.head with hlink | ⟨j, hfree, -⟩
  · -- a page: its first word is the next page of the bin
    obtain ⟨i', hi', hr', heq⟩ := hlink.page hhead
    rw [heq]
    exact hl.link_ne_block (hl.small i' hi' k hr').next hi hp.le
  · rw [hfree.head]
    rcases hfree.le.lt_or_eq with hlt | rfl
    · rw [hfree.link j le_rfl hlt]
      exact blockAddr_ne (Nat.succ_ne_zero j)
    · rw [hfree.last]
      exact hl.link_ne_block (.inl rfl) hi hp.le

/-- The first blocks stay taken where the heads of the other pages stay. -/
theorem FirstTaken.of_head {h' : Heap} {role' : ℕ → Role} {i : ℕ} (ht : FirstTaken S role h)
    (hold : ∀ i' < h'.expanded, i' ≠ i → ∀ k, role' i' = .small k → i' < h.expanded ∧
      role i' = .small k ∧ headerHead h'.mem (S.page i') = headerHead h.mem (S.page i'))
    (hnew : ∀ k, role' i = .small k → headerHead h'.mem (S.page i) ≠ blockAddr (S.page i) k 0) :
    FirstTaken S role' h' := by
  intro i' hi' k hr
  rcases eq_or_ne i' i with rfl | hne
  · exact hnew k hr
  · obtain ⟨hlt, hr', heq⟩ := hold i' hi' hne k hr
    rw [heq]
    exact ht i' hlt k hr'

/-- The head of a page that does not change. -/
theorem headerHead_congr {m m' : Memory} {p : ℕ} (hm : ∀ a, p ≤ a → a < p + 0x1000 → m' a = m a) :
    headerHead m' p = headerHead m p :=
  load64_congr fun a ha ha' => hm a (by omega) (by omega)

/-- A writable address: behind the header of a small page, in a live block or, where the page itself
was handed out, in its first block; or on a page of a large block. -/
theorem Layout.writable (hl : Layout S role headers s.heap s.live) {a : ℕ}
    (ha : Writable S s a) :
    ∃ i < s.heap.expanded, S.page i ≤ a ∧ a < S.page i + 0x1000 ∧
      ((∃ k, role i = .small k ∧ S.page i + 24 ≤ a ∧
          ((∃ j ≤ available k, (∃ x ∈ s.live, x.1 = blockAddr (S.page i) k j) ∧
            blockAddr (S.page i) k j ≤ a ∧ a < blockAddr (S.page i) k j + 8 * 2 ^ k) ∨
          (∃ x ∈ s.live, x.1 = S.page i) ∧ a < blockAddr (S.page i) k 0 + 8 * 2 ^ k)) ∨
        ∃ i₀ ∈ headers, ∃ c, role i = .big i₀ c ∧ (i = i₀ → S.page i + 24 ≤ a)) := by
  obtain ⟨x, hx, hlo, hhi, hbehind, i, hi, hpage, j, hj, hjlo, hjhi⟩ := ha
  have hiS := hi.trans_le hl.count
  have hbytes := size_lt_of_sizeClass (hl.placed x hx).1
  rw [headerBytes] at hbehind
  rcases (hl.placed x hx).2 with hsmall | ⟨hlarge, i₀, hi₀, c, hr, hc, haddr⟩
  · have hk := hsmall.not_large hl
    obtain ⟨i₀, hi₀, hr, hplo, hphi, -⟩ := hsmall.in_page hl
    have hi₀S := hi₀.trans_le hl.count
    obtain rfl : i = i₀ := by
      rw [pageOf_eq hi₀S hplo hphi] at hpage
      exact S.distinct i hiS i₀ hi₀S hpage
    rw [pageOf_eq hi₀S hplo hphi] at hbehind
    rw [pagesBehind, if_neg (by omega), Nat.le_zero] at hj
    subst hj
    have hend : a < S.page i + 0x1000 := hjhi
    refine ⟨i, hi, by omega, hend, .inl ⟨_, hr, hbehind, ?_⟩⟩
    obtain ⟨i', hi', hr', haddr⟩ := hsmall
    rcases haddr with haddr | ⟨jb, hjb, haddr⟩
    · have hmod := S.aligned i' (hi'.trans_le hl.count)
      have hmod' := S.aligned i hiS
      refine .inr ⟨⟨x, hx, by omega⟩, ?_⟩
      simp only [blockAddr, headerBytes]
      omega
    · have hin := block_in_page hk hjb (S.page i')
      have h8 := eight_le_blockBytes (sizeClass x.2)
      obtain rfl : i' = i := by
        by_contra hne
        have := hl.apart hi' hi hne
        unfold Apart at this
        omega
      exact .inl ⟨jb, hjb, ⟨x, hx, haddr⟩, by omega, by omega⟩
  · obtain ⟨c', hb⟩ := hl.big i₀ hi₀
    obtain ⟨-, rfl⟩ := Role.big.inj (hb.role_self.symm.trans hr)
    have hi₀S := hb.lt.trans_le hl.count
    rw [headerBytes] at haddr
    obtain rfl : i = i₀ := by
      rw [pageOf_eq hi₀S (by omega) (by omega)] at hpage
      exact S.distinct i hiS i₀ hi₀S hpage
    -- the block has the pages of its own class, which are at least those of the request
    have hj' : j ≤ extraPages c' := by
      rw [pagesBehind, if_pos hlarge] at hj
      exact hj.trans hc.2
    have hlt : i + j < s.heap.expanded := by
      have := hb.obtained
      omega
    refine ⟨i + j, hlt, hjlo, hjhi, .inr ⟨i, hi₀, c', hb.role j hj', fun heq => ?_⟩⟩
    rw [heq]
    omega

/-- A writable address is behind the headers and outside of the blocks that are not live, the first
blocks of pages that were handed out themselves apart. -/
theorem Layout.writable_apart (hl : Layout S role headers s.heap s.live) {a : ℕ}
    (ha : Writable S s a) :
    (∃ i < s.heap.expanded, S.page i ≤ a ∧ a < S.page i + 0x1000) ∧
    (∀ i < s.heap.expanded, (∃ k, role i = .small k) ∨ i ∈ headers →
      ¬ (S.page i ≤ a ∧ a < S.page i + 24)) ∧
    ∀ i < s.heap.expanded, ∀ k ≤ 8, role i = .small k → ∀ t ≤ available k,
      (∀ x ∈ s.live, x.1 ≠ blockAddr (S.page i) k t) →
      (t = 0 → ∀ x ∈ s.live, x.1 ≠ S.page i) →
      ¬ (blockAddr (S.page i) k t ≤ a ∧ a < blockAddr (S.page i) k t + 8 * 2 ^ k) := by
  obtain ⟨i, hi, hlo, hhi, hwhere⟩ := hl.writable ha
  have hother : ∀ i' < s.heap.expanded, i' ≠ i → ¬ (S.page i' ≤ a ∧ a < S.page i' + 0x1000) := by
    intro i' hi' hne
    have := hl.apart hi' hi hne
    unfold Apart at this
    omega
  refine ⟨⟨i, hi, hlo, hhi⟩, fun i' hi' hheader => ?_, fun i' hi' k hk hr t ht hdead hpage => ?_⟩
  · rcases eq_or_ne i' i with rfl | hne
    · rcases hwhere with ⟨-, -, hbehind, -⟩ | ⟨i₀, -, c, hr, hbehind⟩
      · omega
      · -- the header of a large block is on its first page
        rcases hheader with ⟨k, hr'⟩ | hmem
        · rw [hr] at hr'
          exact Role.noConfusion hr'
        · obtain ⟨c', hb⟩ := hl.big i' hmem
          have := hbehind (Role.big.inj (hb.role_self.symm.trans hr)).1
          omega
    · have := hother i' hi' hne
      omega
  · have hin := block_in_page hk ht (S.page i')
    rcases eq_or_ne i' i with rfl | hne
    · rcases hwhere with ⟨k', hr', hbehind, hblock⟩ | ⟨i₀, -, c, hr', -⟩
      · obtain rfl := Role.small.inj (hr.symm.trans hr')
        rcases hblock with ⟨j, -, ⟨x, hx, haddr⟩, hjlo, hjhi⟩ | ⟨⟨x, hx, haddr⟩, hfirst⟩
        · have happ := blocks_apart_of_ne (k := k) (i := j) (j := t) (S.page i') fun heq =>
            hdead x hx (heq ▸ haddr)
          unfold Apart at happ
          omega
        · -- the page was handed out: only its first block is written
          rcases eq_or_ne t 0 with rfl | hpos
          · exact absurd haddr (hpage rfl x hx)
          · have happ := blocks_apart_of_ne (k := k) (S.page i') hpos
            have hzero : blockAddr (S.page i') k 0 = S.page i' + 24 := by simp [blockAddr, headerBytes]
            unfold Apart at happ
            omega
      · rw [hr] at hr'
        exact Role.noConfusion hr'
    · have := hother i' hi' hne
      omega

/-- **Client writes** meet no header and no block that will be handed out. -/
theorem Settled.write (hl : Settled S role headers s.heap s.live) {a : ℕ} {b : UInt8}
    (ha : Writable S s a) :
    Settled S role headers { s.heap with mem := Function.update s.heap.mem a b } s.live := by
  obtain ⟨-, hheaders, hdead⟩ := hl.toLayout.writable_apart ha
  have hheader : ∀ i < s.heap.expanded, ∀ a', S.page i ≤ a' → a' < S.page i + 20 →
      ((∃ k, role i = .small k) ∨ i ∈ headers) → Function.update s.heap.mem a b a' = s.heap.mem a' := by
    intro i hi a' ha' ha'' hrole
    have := hheaders i hi hrole
    exact Function.update_of_ne (by omega) _ _
  refine { toLayout := hl.toLayout.frame hheader (fun i hi k hk hr j hj t ht ht' hnot => ?_)
             (List.Sublist.refl _), taken := fun i hi k hr => ?_ }
  · have hpos : t ≠ 0 := by
      rintro rfl
      obtain rfl := Nat.le_zero.mp ht
      exact hl.taken i hi k hr hj
    have hfree := hdead i hi k hk hr t ht' hnot fun hzero => absurd hzero hpos
    have h8 := eight_le_blockBytes k
    exact load64_congr fun a' ha' ha'' => Function.update_of_ne (by omega) _ _
  · have hhead : headerHead (Function.update s.heap.mem a b) (S.page i) =
        headerHead s.heap.mem (S.page i) :=
      load64_congr fun a' ha' ha'' => hheader i hi a' (by omega) (by omega) (.inl ⟨k, hr⟩)
    rw [hhead]
    exact hl.taken i hi k hr

/-- The bin of a class serves a request: its page has handed out its first block. -/
theorem Layout.ready_taken (hl : Layout S role headers h live) {k i : ℕ} (hi : i < h.expanded)
    (hr : role i = .small k) (hbin : h.binHeaders k = S.page i)
    (hready : mallocNeedsExpansion h (S.page i) = false) :
    headerHead (Malloc.mallocSmall h k).2.mem (S.page i) ≠ blockAddr (S.page i) k 0 ∧
      ∀ i' < h.expanded, i' ≠ i →
        headerHead (Malloc.mallocSmall h k).2.mem (S.page i') = headerHead h.mem (S.page i') := by
  obtain ⟨-, hframe, hhead, -⟩ := mallocSmall_ready_spec hbin hready
  have hne : headerHead h.mem (S.page i) ≠ 0 := by
    simp only [mallocNeedsExpansion, Bool.or_eq_false_iff, beq_eq_false_iff_ne] at hready
    exact hready.2
  refine ⟨hhead ▸ hl.next_ne_block hi hr hne, fun i' hi' hne' => headerHead_congr fun a ha ha' => ?_⟩
  have := hl.apart hi' hi hne'
  apply hframe
  unfold Apart at this
  omega

/-- **A request of a small class** hands out the first block of a new page at once. -/
theorem Settled.mallocSmall (hl : Settled S role headers h live) {size : ℕ} (hsize : size < 2 ^ 64)
    (hk : sizeClass size ≤ 8) (hsupply : (Malloc.mallocSmall h (sizeClass size)).2.expanded ≤ S.count) :
    ∃ role', (∀ i < h.expanded, role' i = role i) ∧
      Settled S role' headers (Malloc.mallocSmall h (sizeClass size)).2
        (((Malloc.mallocSmall h (sizeClass size)).1, size) :: live) := by
  have hexp := mallocSmall_expanded h (sizeClass size)
  cases hneeds : mallocNeedsExpansion h (h.binHeaders (sizeClass size)) with
  | false =>
    rw [hneeds] at hexp
    -- the first page of the bin has a free block
    obtain ⟨i, hi, hr, hbin, -⟩ := hl.toLayout.ready hk hneeds
    obtain ⟨hnew, hold⟩ := hl.toLayout.ready_taken hi hr hbin (hbin ▸ hneeds)
    refine ⟨role, fun _ _ => rfl,
      { toLayout := hl.toLayout.mallocSmall_ready hsize hk hneeds, taken := ?_ }⟩
    refine hl.taken.of_head (i := i) (fun i' hi' hne k hr' => ?_) fun k hr' => ?_
    · have hlt : i' < h.expanded := hi'.trans_eq hexp
      exact ⟨hlt, hr', hold i' hlt hne⟩
    · obtain rfl := Role.small.inj (hr.symm.trans hr')
      exact hnew
  | true =>
    rw [hneeds] at hexp
    -- a new page becomes the first of the bin, and the block comes from there
    have hlt : h.expanded < S.count := by
      rw [hexp] at hsupply
      exact hsupply
    obtain ⟨hl', hbin, hfree, hexp'⟩ := hl.toLayout.expandBin hk hlt
    have hready : mallocNeedsExpansion (Malloc.expandBin h (sizeClass size)) (S.page h.expanded) = false :=
      hfree.not_needsExpansion (S.nonnull _ hlt)
    obtain ⟨hnew, hold⟩ := hl'.ready_taken (by omega) (Function.update_self ..) hbin hready
    rw [← hbin] at hready
    have hsmall := hl'.mallocSmall_ready hsize hk hready
    rw [← mallocSmall_of_needs hneeds hready] at hnew hold hsmall
    have hrole : ∀ i < h.expanded,
        Function.update role h.expanded (.small (sizeClass size)) i = role i :=
      fun i hi => Function.update_of_ne hi.ne _ _
    refine ⟨_, hrole, { toLayout := hsmall, taken := ?_ }⟩
    refine hl.taken.of_head (i := h.expanded) (fun i' hi' hne k hr => ?_) fun k hr => ?_
    · have hlt' : i' < h.expanded := by
        rw [hexp] at hi'
        exact lt_of_le_of_ne (Nat.le_of_lt_succ hi') hne
      rw [hrole i' hlt'] at hr
      refine ⟨hlt', hr, (hold i' (by omega) hne).trans (headerHead_congr fun a ha ha' => ?_)⟩
      have hpage : h.pages h.expanded = S.page h.expanded := by rw [hl.pages]
      have hbelow := S.below _ hlt
      rw [← hpage] at hbelow
      obtain ⟨hframe, -⟩ := expandBin_spec hk hbelow (hl.toLayout.link_lt (hl.bins _ hk))
      have := S.apart (hlt'.trans hlt) hlt hlt'.ne
      apply hframe
      rw [hpage]
      unfold Apart at this
      omega
    · rw [Function.update_self] at hr
      obtain rfl := Role.small.inj hr
      exact hnew

/-- How a call changes the large headers: not at all, or it adds the header of a new block behind
them. -/
inductive HeadersGrow (role : ℕ → Role) (headers : List ℕ) (expanded : ℕ) (role' : ℕ → Role) :
    Call → List ℕ → Prop
  | same (c : Call) : HeadersGrow role headers expanded role' c headers
  | new (size : ℕ) (large : 9 ≤ sizeClass size)
      (added : role' expanded = .big expanded (sizeClass size)) :
      HeadersGrow role headers expanded role' (.malloc size) (headers ++ [expanded])

/-- The first large block has the pages that a request it serves needs. -/
def PagesServe (role : ℕ → Role) (headers : List ℕ) (s : HeapRun) : Call → Prop
  | .malloc size => 9 ≤ sizeClass size → Reusable s.heap (sizeClass size) → ∀ i ∈ headers,
      ∀ c, role i = .big i c → sizeClass size ≤ c → Serves c (sizeClass size)
  | _ => True

/-- **`malloc` step.** The chain of large headers grows by a large request only. -/
theorem Settled.malloc (hl : Settled S role headers s.heap s.live) {size : ℕ}
    (hadm : Admissible S s (.malloc size)) (honce : ServedOnce s (.malloc size))
    (hserves : PagesServe role headers s (.malloc size)) :
    ∃ role' headers', Settled S role' headers' (s.step (.malloc size)).heap
        (s.step (.malloc size)).live ∧ (∀ i < s.heap.expanded, role' i = role i) ∧
      HeadersGrow role headers s.heap.expanded role' (.malloc size) headers' := by
  obtain ⟨hsize, hsupply⟩ := hadm
  replace hsupply : s.heap.expanded + pagesNeeded s.heap size ≤ S.count := hsupply
  by_cases hlarge : 9 ≤ sizeClass size
  · have hc : sizeClass size < 2 ^ 31 := (sizeClass_le hsize).trans_lt (by decide)
    have hcall : Malloc.malloc s.heap size = mallocBig s.heap (sizeClass size) := if_pos hlarge
    by_cases hreuse : Reusable s.heap (sizeClass size)
    · rw [mallocBig_of_reusable hreuse] at hcall
      simp only [HeapRun.step, hcall]
      exact ⟨role, headers,
        { toLayout := hl.toLayout.reuse hsize hlarge hreuse (hserves hlarge hreuse)
            (honce hlarge hreuse)
          taken := hl.taken },
        fun _ _ => rfl, .same _⟩
    · rw [pagesNeeded, if_pos hlarge, if_neg hreuse] at hsupply
      obtain ⟨m, first, hnew, hbig⟩ := hl.toLayout.mallocBig_new hlarge hc (by omega) hreuse
      rw [hbig] at hcall
      simp only [HeapRun.step, hcall]
      refine ⟨_, _,
        { toLayout := hl.toLayout.addBig hsize hlarge (by omega) hnew, taken := fun i hi k hr => ?_ },
        fun i hi => if_neg (Nat.not_le.mpr hi), .new size hlarge (if_pos le_rfl)⟩
      -- a small page is one obtained before, and no header of a large block
      have hlt : i < s.heap.expanded := by
        by_contra hnot
        dsimp only at hr
        rw [if_pos (Nat.not_lt.mp hnot)] at hr
        exact Role.noConfusion hr
      dsimp only at hr
      rw [if_neg (Nat.not_le.mpr hlt)] at hr
      have hnot : i ∉ headers := fun hmem => hl.toLayout.small_ne_header hr hmem rfl
      have hhead : headerHead m (S.page i) = headerHead s.heap.mem (S.page i) :=
        headerHead_congr fun a ha ha' => hnew.frame i hlt a ha ha' (.inl hnot)
      dsimp only
      rw [hhead]
      exact hl.taken i hlt k hr
  · have hcall : Malloc.malloc s.heap size = some (Malloc.mallocSmall s.heap (sizeClass size)) :=
      if_neg hlarge
    rw [pagesNeeded, if_neg hlarge, ← mallocSmall_expanded] at hsupply
    obtain ⟨role', hrole, hl'⟩ := hl.mallocSmall hsize (by omega) hsupply
    simp only [HeapRun.step, hcall]
    exact ⟨role', headers, hl', hrole, .same _⟩

/-- **`free` step.** -/
theorem Settled.free (hl : Settled S role headers s.heap s.live) {p : ℕ}
    (hproper : Proper s (.free p)) (hfirst : FreesFirst s (.free p)) :
    Settled S role headers (s.step (.free p)).heap (s.step (.free p)).live := by
  obtain ⟨x, hfind⟩ : ∃ x, s.live.find? (·.1 == p) = some x := by
    obtain ⟨x, hx, rfl⟩ := hproper
    exact Option.isSome_iff_exists.mp (List.find?_isSome.mpr ⟨x, hx, by simp⟩)
  obtain rfl : x.1 = p := by simpa using List.find?_some hfind
  have hx := List.mem_of_find?_eq_some hfind
  simp only [HeapRun.step, hfind]
  rcases (hl.placed x hx).2 with hsmall | hbig
  · refine { toLayout := (hl.toLayout.freeSmall hsmall List.erase_sublist).1, taken := ?_ }
    obtain ⟨i, hi, hr, hlo, hhi, hk⟩ := hsmall.in_page hl.toLayout
    have hiS := hi.trans_le hl.count
    obtain ⟨hframe, hhead, -, -, -, hexp⟩ := free_spec hk (S.aligned i hiS) (S.nonnull i hiS)
      (S.below i hiS) hlo hhi (hl.small i hi _ hr).size
    refine hl.taken.of_head (i := i) (fun i' hi' hne k hr' => ?_) fun k hr' => ?_
    · rw [hexp] at hi'
      refine ⟨hi', hr', headerHead_congr fun a ha ha' => ?_⟩
      have := hl.toLayout.apart hi' hi hne
      apply hframe
      unfold Apart at this
      omega
    · rw [hhead]
      obtain rfl := Role.small.inj (hr.symm.trans hr')
      exact hl.toLayout.page_ne_block hi hi hk (Nat.zero_le _)
  · have hsize := hfirst x (mem_large.mpr ⟨hx, hbig.1⟩) rfl
    obtain ⟨hl', hfree⟩ := hl.toLayout.freeLarge hbig hsize (List.erase_sublist (a := x))
    refine { toLayout := hl', taken := fun i hi k hr => ?_ }
    rw [hfree] at hi ⊢
    -- the byte is on the page of the large block
    obtain ⟨-, i₀, hi₀, -, -, -, haddr⟩ := hbig
    have hlt := hl.toLayout.header_lt hi₀
    have hhead : headerHead (s.heap.mem.store (pageOf x.1 + 20) 1 0) (S.page i) =
        headerHead s.heap.mem (S.page i) := by
      refine headerHead_congr fun a ha ha' => store_apply_of_not_mem ?_
      have := hl.toLayout.apart hi hlt (hl.toLayout.small_ne_header hr hi₀)
      rw [pageOf_eq (hlt.trans_le hl.count) (by omega) (by rw [haddr, headerBytes]; omega)]
      unfold Apart at this
      omega
    dsimp only
    rw [hhead]
    exact hl.taken i hi k hr

/-- **Step lemma.** -/
theorem Settled.step (hl : Settled S role headers s.heap s.live) {c : Call}
    (hadm : Admissible S s c) (hfirst : FreesFirst s c) (honce : ServedOnce s c)
    (hserves : PagesServe role headers s c) :
    ∃ role' headers', Settled S role' headers' (s.step c).heap (s.step c).live ∧
      (∀ i < s.heap.expanded, role' i = role i) ∧
      HeadersGrow role headers s.heap.expanded role' c headers' := by
  cases c with
  | malloc size => exact hl.malloc hadm honce hserves
  | free p => exact ⟨role, headers, hl.free hadm.1 hfirst, fun _ _ => rfl, .same _⟩
  | write a b => exact ⟨role, headers, hl.write hadm.2, fun _ _ => rfl, .same _⟩

end Steps

/-! ## Large blocks are disjoint -/

/-- The live large blocks are pairwise disjoint. -/
def LargeDisjoint (s : HeapRun) : Prop :=
  (large s.live).Pairwise fun x y => Disjoint (range x) (range y)

/-- Frames are handed out contiguously. -/
def PageSupply.Contiguous (S : PageSupply) : Prop :=
  ∀ i, i + 1 < S.count → S.page (i + 1) = S.page i + 0x1000

section Disjoint

variable {S : PageSupply} {role : ℕ → Role} {headers : List ℕ} {s : HeapRun}

theorem PageSupply.Contiguous.page_add (hS : S.Contiguous) {i j : ℕ} (h : i + j < S.count) :
    S.page (i + j) = S.page i + 0x1000 * j := by
  induction j with
  | zero => rfl
  | succ j ih =>
    have hstep := hS (i + j) (by omega)
    have hprev := ih (by omega)
    rw [← Nat.add_assoc, hstep, hprev]
    omega

/-- The pages of a large block have room for a request that it serves. -/
theorem large_fits {size c : ℕ} (hsize : size < 2 ^ 41) (hlarge : 9 ≤ sizeClass size)
    (hc : Serves c (sizeClass size)) : headerBytes + size ≤ 0x1000 * (extraPages c + 1) := by
  have hbytes := size_lt_of_sizeClass (hsize.trans (by decide))
  have hpages := hc.2
  rw [extraPages_eq (sizeClass_le_of_lt hsize)] at hpages
  have hsplit : 2 ^ sizeClass size = 2 ^ (sizeClass size - 9) * 2 ^ 9 := by
    rw [← pow_add]
    congr 1
    omega
  rw [headerBytes]
  omega

/-- Two large blocks with different headers do not meet. -/
theorem Layout.bigs_apart (hl : Layout S role headers s.heap s.live) (hS : S.Contiguous)
    {i i' c c' n n' : ℕ} (hb : BigBlock S role s.heap headers i c)
    (hb' : BigBlock S role s.heap headers i' c') (hlt : i < i')
    (hn : n ≤ 0x1000 * (extraPages c + 1)) :
    Disjoint (Set.Ico (S.page i) (S.page i + n)) (Set.Ico (S.page i') (S.page i' + n')) := by
  have hbehind : i + extraPages c < i' := by
    by_contra hnot
    -- the second header would be a page of the first block
    have hrole := hb.role (i' - i) (by omega)
    rw [Nat.add_sub_cancel' hlt.le, hb'.role_self] at hrole
    exact hlt.ne (Role.big.inj hrole).1.symm
  have hcount := hb'.lt.trans_le hl.count
  have hpage := hS.page_add (i := i) (j := i' - i) (by omega)
  rw [Nat.add_sub_cancel' hlt.le] at hpage
  apply disjoint_Ico_of_apart
  left
  rw [hpage]
  have := Nat.mul_le_mul_left 0x1000 (show extraPages c + 1 ≤ i' - i by omega)
  omega

theorem Layout.largeDisjoint (hl : Layout S role headers s.heap s.live) (hS : S.Contiguous)
    (hfits : ∀ x ∈ s.live, x.2 < 2 ^ 41) : LargeDisjoint s := by
  have hpair : (large s.live).Pairwise fun x y => x.1 ≠ y.1 := List.pairwise_map.mp hl.once
  refine hpair.imp_of_mem fun {x y} hx hy hne => ?_
  have hxsize := hfits x (mem_large.mp hx).1
  have hysize := hfits y (mem_large.mp hy).1
  obtain ⟨hxl, i, hi, c, hr, hc, hxa⟩ := hl.onBig hx
  obtain ⟨hyl, j, hj, d, hr', hd, hya⟩ := hl.onBig hy
  obtain ⟨c', hb⟩ := hl.big i hi
  obtain ⟨d', hb'⟩ := hl.big j hj
  obtain ⟨-, rfl⟩ := Role.big.inj (hb.role_self.symm.trans hr)
  obtain ⟨-, rfl⟩ := Role.big.inj (hb'.role_self.symm.trans hr')
  have hij : i ≠ j := by
    rintro rfl
    exact hne (hxa.trans hya.symm)
  -- a request is inside the pages of its block, header included
  have hxsub : range x ⊆ Set.Ico (S.page i) (S.page i + (headerBytes + x.2)) := by
    rintro a ⟨ha, ha'⟩
    exact ⟨by omega, by omega⟩
  have hysub : range y ⊆ Set.Ico (S.page j) (S.page j + (headerBytes + y.2)) := by
    rintro a ⟨ha, ha'⟩
    exact ⟨by omega, by omega⟩
  refine Disjoint.mono hxsub hysub ?_
  rcases Nat.lt_or_gt_of_ne hij with hlt | hlt
  · exact hl.bigs_apart hS hb hb' hlt (large_fits hxsize hxl hc)
  · exact (hl.bigs_apart hS hb' hb hlt (large_fits hysize hyl hd)).symm

/-- A second request served from the first block while the first one is live meets it. -/
theorem served_twice {size : ℕ} (hbad : ¬ ServedOnce s (.malloc size)) :
    ¬ LargeDisjoint (s.step (.malloc size)) := by
  simp only [ServedOnce, not_forall, not_not] at hbad
  obtain ⟨hlarge, hreuse, x, hx, hptr⟩ := hbad
  have hcall : Malloc.malloc s.heap size =
      some (headerHead s.heap.mem s.heap.firstBigBinHeader, s.heap) :=
    (if_pos hlarge).trans (mallocBig_of_reusable hreuse)
  have hpos : ∀ n, 9 ≤ sizeClass n → 0 < n := by
    intro n hn
    apply Nat.pos_of_ne_zero
    rintro rfl
    exact absurd hn (by decide)
  simp only [HeapRun.step, hcall, LargeDisjoint]
  rw [large_cons_of_large hlarge]
  intro hdisj
  have hmeet := (List.pairwise_cons.mp hdisj).1 x hx
  rw [range, range, Set.disjoint_left] at hmeet
  have := hpos _ hlarge
  have := hpos _ (mem_large.mp hx).2
  exact hmeet (a := x.1) ⟨hptr.symm.le, by dsimp only; omega⟩ ⟨le_rfl, by omega⟩

end Disjoint

/-- Some assignment of roles to pages describes the heap, and the requests fit in it. -/
def HasLayout (S : PageSupply) (s : HeapRun) : Prop :=
  ∃ role headers, Settled S role headers s.heap s.live ∧
    (∀ i ∈ headers, ∀ c, role i = .big i c → c ≤ 38) ∧ ∀ x ∈ s.live, x.2 < 2 ^ 41

section Fits

variable {S : PageSupply} {s : HeapRun} {c : Call}

/-- Live requests that fit stay so. -/
theorem live_fits (hlive : ∀ x ∈ s.live, x.2 < 2 ^ 41) (hfits : c.Fits) :
    ∀ x ∈ (s.step c).live, x.2 < 2 ^ 41 := by
  cases c with
  | malloc size =>
    simp only [HeapRun.step]
    split
    · exact List.forall_mem_cons.mpr ⟨hfits, hlive⟩
    · exact hlive
  | free p =>
    simp only [HeapRun.step]
    split
    · exact fun x hx => hlive x (List.mem_of_mem_erase hx)
    · exact hlive
  | write a b => exact hlive

/-- **Step lemma** for requests that fit. -/
theorem HasLayout.step (h : HasLayout S s) (hadm : Admissible S s c) (hfits : c.Fits)
    (hfirst : FreesFirst s c) (honce : ServedOnce s c) : HasLayout S (s.step c) := by
  obtain ⟨role, headers, hl, hbound, hlive⟩ := h
  have hserves : PagesServe role headers s c := by
    cases c with
    | malloc size => exact fun _ _ i hi c hr hle => ⟨hle, extraPages_mono hle (hbound i hi c hr)⟩
    | _ => trivial
  obtain ⟨role', headers', hl', hrole, hgrow⟩ := hl.step hadm hfirst honce hserves
  refine ⟨role', headers', hl', fun i hi c' hr => ?_, live_fits hlive hfits⟩
  have hold (hi : i ∈ headers) : c' ≤ 38 := by
    rw [hrole i (hl.toLayout.header_lt hi)] at hr
    exact hbound i hi c' hr
  cases hgrow with
  | same => exact hold hi
  | new size hlarge hadded =>
    rcases List.mem_append.mp hi with hi | hi
    · exact hold hi
    · -- the new block has the class of its request
      obtain rfl := List.mem_singleton.mp hi
      obtain ⟨-, rfl⟩ := Role.big.inj (hr.symm.trans hadded)
      exact sizeClass_le_of_lt hfits

end Fits

/-- **Large blocks along runs**, on pages that follow one another. In a run whose requests find their
pages and fit in an `int` of them, whose writes stay behind the headers and on the pages of their
blocks, in which only the first large block is freed and it is never served to two live requests, the
live large blocks are disjoint in every state. Where the other conditions are met, the last one is
necessary. -/
theorem largeDisjoint_everywhere (S : PageSupply) (hS : S.Contiguous) (m : Memory)
    (calls : List Call) (hproper : Along HeapRun.step Proper (HeapRun.start S m) calls) :
    (Along HeapRun.step (fun s c => (Contained S s c ∧ c.Fits ∧ FreesFirst s c) ∧ ServedOnce s c)
        (HeapRun.start S m) calls →
      Everywhere HeapRun.step LargeDisjoint (HeapRun.start S m) calls) ∧
    (Along HeapRun.step (fun s c => Contained S s c ∧ c.Fits ∧ FreesFirst s c)
        (HeapRun.start S m) calls →
      (Everywhere HeapRun.step LargeDisjoint (HeapRun.start S m) calls ↔
        Along HeapRun.step ServedOnce (HeapRun.start S m) calls)) := by
  have hiff (hguard : Along HeapRun.step (fun s c => Contained S s c ∧ c.Fits ∧ FreesFirst s c)
      (HeapRun.start S m) calls) :
      Everywhere HeapRun.step LargeDisjoint (HeapRun.start S m) calls ↔
        Along HeapRun.step ServedOnce (HeapRun.start S m) calls := by
    have hstart : HasLayout S (HeapRun.start S m) :=
      ⟨_, _, Settled.start S m, fun _ hi => absurd hi List.not_mem_nil,
        fun _ hx => absurd hx List.not_mem_nil⟩
    refine everywhere_iff_along (along_and.mpr ⟨hproper, hguard⟩) hstart ?_ ?_ ?_
    · rintro s c h ⟨hproper, hcontained, hfits, hfirst⟩ honce
      exact h.step ⟨hproper, hcontained⟩ hfits hfirst honce
    · rintro s ⟨role, headers, hl, -, hlive⟩
      exact hl.toLayout.largeDisjoint hS hlive
    · intro s c _ _ hbad
      cases c with
      | malloc size => exact served_twice hbad
      | free p => exact absurd trivial hbad
      | write a b => exact absurd trivial hbad
  refine ⟨fun hgood => ?_, hiff⟩
  obtain ⟨hguard, honce⟩ := along_and.mp hgood
  exact (hiff hguard).mpr honce

/-- Six pages from `0x1000` on. -/
def sixPages : PageSupply where
  page i := 0x1000 * (i + 1)
  count := 6
  aligned i _ := Nat.mul_mod_right ..
  nonnull i _ := Nat.succ_ne_zero _
  below i hi := by omega
  distinct _ _ _ _ h := Nat.succ.inj (Nat.eq_of_mul_eq_mul_left (Nat.succ_pos _) h)

theorem sixPages_contiguous : sixPages.Contiguous := by
  intro i _
  change 0x1000 * (i + 1 + 1) = 0x1000 * (i + 1) + 0x1000
  omega

/-- Two large blocks, a write into the first, which is then freed and used again. -/
theorem largeDisjoint_of_one_reuse :
    Everywhere HeapRun.step LargeDisjoint (HeapRun.start sixPages fun _ => 0)
      [.malloc 2048, .malloc 2100, .write 4125 7, .free 4120, .malloc 3000] :=
  (largeDisjoint_everywhere sixPages sixPages_contiguous (fun _ => 0) _ (by decide)).1
    (by decide)

/-- Two large requests, a `free` of the first block and two more requests: both are given the
first block. -/
theorem first_block_served_twice :
    Along HeapRun.step (Admissible sixPages) (HeapRun.start sixPages fun _ => 0)
      [.malloc 2048, .malloc 2048, .free 4120, .malloc 2048, .malloc 2048] ∧
    ¬ LargeDisjoint (run HeapRun.step (HeapRun.start sixPages fun _ => 0)
      [.malloc 2048, .malloc 2048, .free 4120, .malloc 2048, .malloc 2048]) := by
  refine ⟨by decide, ?_⟩
  have hbad : ¬ ServedOnce (run HeapRun.step (HeapRun.start sixPages fun _ => 0)
      [.malloc 2048, .malloc 2048, .free 4120, .malloc 2048]) (.malloc 2048) := by decide
  exact served_twice hbad

/-! ## The header of a block records its class -/

/-- What `free` does with a block: it goes the way of its class. -/
def FreedByClass (h : Heap) (x : ℕ × ℕ) : Prop :=
  if 9 ≤ sizeClass x.2 then free h x.1 = { h with mem := h.mem.store (pageOf x.1 + 20) 1 0 }
  else (free h x.1).binHeaders = Function.update h.binHeaders (sizeClass x.2) (pageOf x.1)

/-- For every live pointer the size field of its page is the class of its request, and `free` of
it takes the branch of that class. -/
def ClassesAgree (s : HeapRun) : Prop :=
  ∀ x ∈ s.live, headerSize s.heap.mem (pageOf x.1) = sizeClass x.2 ∧ FreedByClass s.heap x

section Classes

variable {S : PageSupply} {role : ℕ → Role} {headers : List ℕ} {s : HeapRun}

/-- With one large block at most, every header has the class of the requests it serves. -/
theorem Layout.headerSize_eq (hl : Layout S role headers s.heap s.live)
    (hone : headers.length ≤ 1) {x : ℕ × ℕ} (hx : x ∈ s.live) :
    headerSize s.heap.mem (pageOf x.1) = sizeClass x.2 := by
  have hclass := (sizeClass_le (hl.placed x hx).1).trans_lt (show 64 < 2 ^ 31 by decide)
  rcases (hl.placed x hx).2 with hsmall | hbig
  · obtain ⟨i, hi, hr, hlo, hhi, -⟩ := hsmall.in_page hl
    rw [pageOf_eq (hi.trans_le hl.count) hlo hhi]
    exact Malloc.headerSize_eq (hl.small i hi _ hr).size hclass
  · have hmem := mem_large.mpr ⟨hx, hbig.1⟩
    obtain ⟨-, i, hi, c, hr, -, haddr⟩ := hbig
    obtain ⟨c', hb⟩ := hl.big i hi
    obtain ⟨-, rfl⟩ := Role.big.inj (hb.role_self.symm.trans hr)
    obtain rfl : headers = [i] := by
      cases headers with
      | nil => exact absurd hi List.not_mem_nil
      | cons j rest =>
        obtain rfl := List.eq_nil_of_length_eq_zero (Nat.le_zero.mp (Nat.le_of_succ_le_succ hone))
        rw [List.mem_singleton.mp hi]
    have hsize : pageClass s.heap.mem (S.page i) = c' := hb.size.trans (if_pos rfl)
    rw [pageOf_eq (hb.lt.trans_le hl.count) (by omega) (by rw [haddr, headerBytes]; omega)]
    rw [← hl.alone i c' rfl hr x hmem] at hsize
    exact Malloc.headerSize_eq hsize hclass

theorem Layout.classesAgree (hl : Layout S role headers s.heap s.live)
    (hone : headers.length ≤ 1) : ClassesAgree s := by
  intro x hx
  have hsize := hl.headerSize_eq hone hx
  refine ⟨hsize, ?_⟩
  unfold FreedByClass
  split_ifs with hlarge
  · refine (hl.freeLarge (hl.onBig (mem_large.mpr ⟨hx, hlarge⟩)) ?_ (List.Sublist.refl _)).2
    rw [hsize]
    exact_mod_cast hlarge
  · exact (hl.freeSmall (hl.onSmall hx (by omega)) (List.Sublist.refl _)).2

/-- With one large block at most, the calls that ask for no second one keep it so. -/
theorem Settled.step_first (hl : Settled S role headers s.heap s.live) (hone : headers.length ≤ 1)
    {c : Call} (hadm : Admissible S s c) (hfirst : FirstLarge s c) :
    ∃ role' headers', Settled S role' headers' (s.step c).heap (s.step c).live ∧
      headers'.length ≤ 1 := by
  -- the only header is the one of the block that is freed
  have hfrees : FreesFirst s c := by
    cases c with
    | free p =>
      rintro x hx rfl
      obtain ⟨hmem, hlarge⟩ := mem_large.mp hx
      rw [hl.toLayout.headerSize_eq hone hmem]
      exact_mod_cast hlarge
    | _ => trivial
  -- a large block is asked for only as long as there is none
  have hreuse {size : ℕ} (hc : c = .malloc size) (hlarge : 9 ≤ sizeClass size) :
      ¬ Reusable s.heap (sizeClass size) := by
    subst hc
    exact fun hreuse => hreuse.1 (hfirst hlarge)
  have honce : ServedOnce s c := by
    cases c with
    | malloc size => exact fun hlarge hfree => absurd hfree (hreuse rfl hlarge)
    | _ => trivial
  have hserves : PagesServe role headers s c := by
    cases c with
    | malloc size => exact fun hlarge hfree => absurd hfree (hreuse rfl hlarge)
    | _ => trivial
  obtain ⟨role', headers', hl', -, hgrow⟩ := hl.step hadm hfrees honce hserves
  refine ⟨role', headers', hl', ?_⟩
  cases hgrow with
  | same => exact hone
  | new size hlarge hadded =>
    have hnil : headers = [] := by
      cases headers with
      | nil => rfl
      | cons i rest =>
        have hpage := hl.toLayout.first_eq (i := i) rfl
        rw [hfirst hlarge] at hpage
        exact absurd hpage.symm (hl.toLayout.page_ne_zero
          (hl.toLayout.header_lt (List.mem_cons_self ..)))
    subst hnil
    exact Nat.le_refl 1

/-- A second large request gets a header with the class 0. -/
theorem Layout.second_large (hl : Layout S role headers s.heap s.live) (hone : headers.length ≤ 1)
    {c : Call} (hadm : Admissible S s c) (hbad : ¬ FirstLarge s c) : ¬ ClassesAgree (s.step c) := by
  cases c with
  | free p => exact absurd (fun hlarge => absurd hlarge id) hbad
  | write a b => exact absurd (fun hlarge => absurd hlarge id) hbad
  | malloc size =>
    obtain ⟨hsize, hsupply⟩ := hadm
    replace hsupply : s.heap.expanded + pagesNeeded s.heap size ≤ S.count := hsupply
    obtain ⟨hlarge, hne⟩ := Classical.not_imp.mp hbad
    replace hlarge : 9 ≤ sizeClass size := hlarge
    -- the one large block is the last of the chain, so it is not reused
    obtain ⟨i, rfl⟩ : ∃ i, headers = [i] := by
      cases headers with
      | nil => exact absurd hl.chain hne
      | cons i rest =>
        obtain rfl := List.eq_nil_of_length_eq_zero (Nat.le_zero.mp (Nat.le_of_succ_le_succ hone))
        exact ⟨i, rfl⟩
    have hreuse : ¬ Reusable s.heap (sizeClass size) := by
      rintro ⟨-, hnext, -⟩
      rw [hl.first_eq rfl] at hnext
      exact hnext hl.chain.2
    rw [pagesNeeded, if_pos hlarge, if_neg hreuse] at hsupply
    have hc : sizeClass size < 2 ^ 31 := (sizeClass_le hsize).trans_lt (by decide)
    obtain ⟨m, first, hnew, hbig⟩ := hl.mallocBig_new hlarge hc (by omega) hreuse
    have hcall : Malloc.malloc s.heap size = mallocBig s.heap (sizeClass size) := if_pos hlarge
    rw [hbig] at hcall
    simp only [HeapRun.step, hcall]
    intro hagree
    have hsize := (hagree _ (List.mem_cons_self ..)).1
    dsimp only at hsize
    have hzero := hnew.size
    rw [if_neg (List.cons_ne_nil _ _)] at hzero
    have hcount : s.heap.expanded < S.count := by omega
    rw [pageOf_eq hcount (Nat.le_add_right ..) (by simp only [headerBytes]; omega),
      Malloc.headerSize_eq hzero (by decide)] at hsize
    omega

end Classes

/-- A heap with one large block at most. -/
def HasOneLarge (S : PageSupply) (s : HeapRun) : Prop :=
  ∃ role headers, Settled S role headers s.heap s.live ∧ headers.length ≤ 1

/-- **Header classes along runs**: in a run whose requests find their pages, whose writes stay behind
the headers and on the pages of their blocks, and which makes at most one large request, the header a
live pointer leads back to has the class of its request in every state. Where the first two conditions
are met, the last one is necessary. -/
theorem classesAgree_everywhere (S : PageSupply) (m : Memory) (calls : List Call)
    (hproper : Along HeapRun.step Proper (HeapRun.start S m) calls) :
    (Along HeapRun.step (fun s c => Contained S s c ∧ FirstLarge s c) (HeapRun.start S m) calls →
      Everywhere HeapRun.step ClassesAgree (HeapRun.start S m) calls) ∧
    (Along HeapRun.step (Contained S) (HeapRun.start S m) calls →
      (Everywhere HeapRun.step ClassesAgree (HeapRun.start S m) calls ↔
        Along HeapRun.step FirstLarge (HeapRun.start S m) calls)) := by
  have hiff (hcontained : Along HeapRun.step (Contained S) (HeapRun.start S m) calls) :
      Everywhere HeapRun.step ClassesAgree (HeapRun.start S m) calls ↔
        Along HeapRun.step FirstLarge (HeapRun.start S m) calls := by
    have hstart : HasOneLarge S (HeapRun.start S m) := ⟨_, _, Settled.start S m, Nat.zero_le _⟩
    refine everywhere_iff_along (along_and.mpr ⟨hproper, hcontained⟩) hstart ?_ ?_ ?_
    · rintro s c ⟨role, headers, hl, hone⟩ hc hfirst
      exact hl.step_first hone hc hfirst
    · rintro s ⟨role, headers, hl, hone⟩
      exact hl.toLayout.classesAgree hone
    · rintro s c ⟨role, headers, hl, hone⟩ hc hbad
      exact hl.toLayout.second_large hone hc hbad
  refine ⟨fun hgood => ?_, hiff⟩
  obtain ⟨hcontained, hfirst⟩ := along_and.mp hgood
  exact (hiff hcontained).mpr hfirst

/-- Requests of two classes, one of them large, with frees and writes in between, the last one through
the pointer to a page that a request was given. -/
theorem classesAgree_of_one_large :
    Everywhere HeapRun.step ClassesAgree (HeapRun.start sixPages fun _ => 0)
      [.malloc 100, .malloc 3000, .free 8216, .write 4126 7, .free 4120, .malloc 100,
        .write 4130 7] :=
  (classesAgree_everywhere sixPages (fun _ => 0) _ (by decide +kernel)).1 (by decide +kernel)

/-- Two large requests: the header of the second has the size 0. -/
theorem second_large_has_class_zero :
    Along HeapRun.step (Admissible sixPages) (HeapRun.start sixPages fun _ => 0)
      [.malloc 2048, .malloc 2048] ∧
    ¬ ClassesAgree (run HeapRun.step (HeapRun.start sixPages fun _ => 0)
      [.malloc 2048, .malloc 2048]) := by
  have hadm : Along HeapRun.step (Admissible sixPages) (HeapRun.start sixPages fun _ => 0)
      [.malloc 2048, .malloc 2048] := by decide
  refine ⟨hadm, ?_⟩
  have hfirst : FirstLarge (HeapRun.start sixPages fun _ => 0) (.malloc 2048) := fun _ => rfl
  obtain ⟨role, headers, hl, hone⟩ :=
    (Settled.start sixPages fun _ => 0).step_first (Nat.zero_le _) hadm.1 hfirst
  have hbad : ¬ FirstLarge (run HeapRun.step (HeapRun.start sixPages fun _ => 0) [.malloc 2048])
      (.malloc 2048) := by decide
  exact hl.toLayout.second_large hone hadm.2.1 hbad

end Cutesugar.Kernel.Malloc
