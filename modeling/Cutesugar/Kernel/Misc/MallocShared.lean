import Cutesugar.Kernel.Arch.FramePool
import Cutesugar.Kernel.Arch.PageMap
import Cutesugar.Kernel.Misc.MallocRuns

/-!
# Two heaps on one pool of frames (`kernel/misc/malloc.c`, `libc/stdlib/malloc.c`)

The kernel heap and the heap of a user process are two copies of the same allocator. Each has its
own static variables and its own pages; what they share is the pool that `KernelExpandHeap`, and
system call 6 for the user process, take frames from. A large request asks for its frames one at
a time, so requests of the other heap, and of everybody else who uses the pool, may come in
between.

## Structure

- `Shared`, `HeapEvent`: both heaps, with a large request taken apart into single frames.
- `Shared.uninterrupted`: without interruption a large request is `mallocBig`.
- `large_ranges_owned`: which large requests get a range of their own frames.
-/

namespace Cutesugar.Kernel.Mmu

/-- `KernelExpandHeap`: the next frame, at its HHDM address. -/
def kernelExpandHeap (P : Platform) (s : State) : ℕ × State :=
  let (frame, s) := kernelAllocateFrame s
  ((frame + P.hhdmOffset) % 2 ^ 64, s)

/-! ## The pool holds page addresses -/

/-- Every slot of `mem_list` holds the address of a page. -/
def PagesOnly (s : State) : Prop := ∀ i, s.memList i % 0x1000 = 0

theorem fillRegion_pagesOnly {limit room pos base : ℕ} {memList : ℕ → ℕ} {r : (ℕ → ℕ) × ℕ}
    (hmem : ∀ i, memList i % 0x1000 = 0) (hbase : base % 0x1000 = 0)
    (h : fillRegion limit room memList pos base = .ok r) : ∀ i, r.1 i % 0x1000 = 0 := by
  induction room generalizing memList pos base with
  | zero =>
    rw [fillRegion] at h
    split_ifs at h
    obtain rfl := Except.ok.inj h
    exact hmem
  | succ room ih =>
    rw [fillRegion] at h
    split_ifs at h
    · refine ih (fun i => ?_) (by omega) h
      rcases eq_or_ne i pos with rfl | hne
      · rw [Function.update_self]
        exact hbase
      · rw [Function.update_of_ne hne]
        exact hmem i
    · obtain rfl := Except.ok.inj h
      exact hmem

theorem fillEntries_pagesOnly {es : List MemmapEntry} {i pos : ℕ} {memList : ℕ → ℕ}
    {r : (ℕ → ℕ) × ℕ} (hes : ∀ e ∈ es, e.base % 0x1000 = 0)
    (hmem : ∀ i, memList i % 0x1000 = 0) (h : fillEntries es i memList pos = .ok r) :
    ∀ i, r.1 i % 0x1000 = 0 := by
  induction es generalizing i pos memList with
  | nil =>
    obtain rfl := Except.ok.inj h
    exact hmem
  | cons e es ih =>
    rw [fillEntries] at h
    cases hentry : fillEntry e memList pos with
    | error f => simp [hentry, bind, Except.bind] at h
    | ok r' =>
      simp only [hentry, bind, Except.bind] at h
      have hr' : ∀ i, r'.1 i % 0x1000 = 0 := by
        rw [fillEntry] at hentry
        split_ifs at hentry
        · exact fillRegion_pagesOnly hmem (hes e (List.mem_cons_self ..)) hentry
        · obtain rfl := Except.ok.inj hentry
          exact hmem
      split_ifs at h
      exact ih (fun e he => hes e (List.mem_cons_of_mem _ he)) hr' h

/-- **Boot**: a memory map of whole pages gives a pool of page addresses. -/
theorem PagesOnly.boot {es : List MemmapEntry} {s₀ s : State}
    (hes : ∀ e ∈ es, e.base % 0x1000 = 0) (hmem : PagesOnly s₀)
    (hinit : kernelInitializeMemStack (some es) s₀ = .ok s) : PagesOnly s := by
  rw [kernelInitializeMemStack] at hinit
  cases hfill : fillEntries es 0 s₀.memList 0 with
  | error f => simp [hfill, Except.map] at hinit
  | ok r =>
    simp only [hfill, Except.map] at hinit
    obtain rfl := Except.ok.inj hinit
    exact fillEntries_pagesOnly hes hmem hfill

/-- A frame that is no page address is not taken back. -/
theorem PagesOnly.deallocate {s : State} (h : PagesOnly s) (f : ℕ) :
    PagesOnly (kernelDeallocateFrame s f).2 := by
  rw [kernelDeallocateFrame]
  split_ifs with hoff hpos
  · exact h
  · exact h
  · intro i
    dsimp only
    have hf : f % 0x1000 = 0 := by
      rw [not_not, show 0xFFF = 2 ^ 12 - 1 by decide, Nat.and_two_pow_sub_one_eq_mod] at hoff
      exact hoff
    rcases eq_or_ne i (s.stackPosition - 1) with rfl | hne
    · rw [Function.update_self]
      exact hf
    · rw [Function.update_of_ne hne]
      exact h i

/-- A page has room up to the end of the address space. -/
theorem PagesOnly.kernelExpandHeap {P : Platform} {s : State} (h : PagesOnly s)
    (hP : P.hhdmOffset % 0x1000 = 0) : (kernelExpandHeap P s).1 + 0x1000 ≤ 2 ^ 64 := by
  have hframe := h s.stackPosition
  show (s.memList s.stackPosition + P.hhdmOffset) % 2 ^ 64 + 0x1000 ≤ 2 ^ 64
  omega

/-- Such a page begins at a page address. -/
theorem PagesOnly.kernelExpandHeap_aligned {P : Platform} {s : State} (h : PagesOnly s)
    (hP : P.hhdmOffset % 0x1000 = 0) : (Mmu.kernelExpandHeap P s).1 % 0x1000 = 0 := by
  have hframe := h s.stackPosition
  show (s.memList s.stackPosition + P.hhdmOffset) % 2 ^ 64 % 0x1000 = 0
  omega

end Cutesugar.Kernel.Mmu

namespace Cutesugar.Kernel.Malloc

open Lib Lib.Memory

/-! ## State -/

inductive Side where
  | kernel
  | user
  deriving DecidableEq

/-- Where an allocator stands: in no large request; in one that is about to take its header page,
to be linked behind `last`; or in the loop `for (i = 1; i <= (2 << (list - 9)); ++i)`. -/
inductive Phase where
  | idle
  | header (size : UInt64) (last : Option ℕ)
  | pages (size : UInt64) (header i : ℕ)

/-- An allocator, and the pages that its large request has been given so far. -/
structure Allocator where
  heap : Heap
  phase : Phase
  obtained : List ℕ

/-- A large request that was answered: what it was for, what it returned, and the pages that it
obtained. -/
structure Grant where
  size : UInt64
  ptr : ℕ
  obtained : List ℕ
  deriving DecidableEq

structure Shared where
  pool : Mmu.State
  allocator : Side → Allocator
  grants : List Grant

inductive HeapEvent where
  /-- `malloc` is entered, with `fuel` rounds for the walk over the large headers. -/
  | malloc (side : Side) (size : UInt64) (fuel : ℕ)
  /-- A large request in progress asks for its next frame. -/
  | request (side : Side)
  | free (side : Side) (p : ℕ)
  /-- A byte of the pages of a heap changes. -/
  | write (side : Side) (a : ℕ) (b : UInt8)
  /-- Somebody else takes a frame from the pool or gives one back. -/
  | frame (c : Mmu.PoolCall)

/-! ## Steps -/

section Step

variable (P : Mmu.Platform)

def Shared.set (w : Shared) (side : Side) (a : Allocator) : Shared :=
  { w with allocator := Function.update w.allocator side a }

/-- `malloc` up to the first frame that it asks for. The small classes ask for one frame at most,
before they do anything else. -/
def Shared.malloc (w : Shared) (side : Side) (size : UInt64) (fuel : ℕ) : Shared :=
  let a := w.allocator side
  let h := a.heap
  let list := sizeClass size.toNat
  if list < 9 then
    let (page, pool) := Mmu.kernelExpandHeap P w.pool
    let h' := (mallocSmall { h with pages := fun _ => page } list).2
    let pool := if h'.expanded = h.expanded then w.pool else pool
    { w.set side { a with heap := { h' with pages := h.pages } } with pool := pool }
  else if h.firstBigBinHeader = 0 then w.set side { a with phase := .header size none }
  else
    let stop := fun t => headerNext h.mem t == 0 ||
      (headerUsed h.mem t == 0 && decide ((list : ℤ) ≤ headerSize h.mem t))
    match walk (headerNext h.mem) stop fuel h.firstBigBinHeader with
    | none => w
    | some traversal =>
      if headerNext h.mem traversal ≠ 0 then
        { w with grants := ⟨size, headerHead h.mem traversal, []⟩ :: w.grants }
      else w.set side { a with phase := .header size (some traversal) }

/-- What a large request does with its first page: the header of the first large block, or the
header of a further one behind `last`. -/
def Heap.addHeader (h : Heap) (last : Option ℕ) (page list : ℕ) : Heap :=
  match last with
  | none =>
    { h with
      mem := initBigHeader h.mem page list
      firstBigBinHeader := page
      expanded := h.expanded + 1 }
  | some last =>
    -- as in `mallocBig`: the size stored is what the class loop has left of it
    { h with
      mem := initBigHeader (h.mem.store64 last page) page 0
      expanded := h.expanded + 1 }

/-- One frame for a large request, and what the request does up to its next one. -/
def Shared.request (w : Shared) (side : Side) : Shared :=
  let a := w.allocator side
  let h := a.heap
  let (page, pool) := Mmu.kernelExpandHeap P w.pool
  match a.phase with
  | .idle => w
  | .header size last =>
    let h := h.addHeader last page (sizeClass size.toNat)
    if 1 ≤ extraPages (sizeClass size.toNat) then
      { w.set side ⟨h, .pages size page 1, [page]⟩ with pool := pool }
    else
      { w.set side ⟨h, .idle, []⟩ with
        pool := pool
        grants := ⟨size, headerHead h.mem page, [page]⟩ :: w.grants }
  | .pages size header i =>
    let h := { h with expanded := h.expanded + 1 }
    let obtained := a.obtained ++ [page]
    if i < extraPages (sizeClass size.toNat) then
      { w.set side ⟨h, .pages size header (i + 1), obtained⟩ with pool := pool }
    else
      { w.set side ⟨h, .idle, []⟩ with
        pool := pool
        grants := ⟨size, headerHead h.mem header, obtained⟩ :: w.grants }

/-- Only an allocator that is in no large request is called. -/
def Shared.step (w : Shared) : HeapEvent → Shared
  | .malloc side size fuel =>
    match (w.allocator side).phase with
    | .idle => w.malloc P side size fuel
    | _ => w
  | .request side => w.request P side
  | .free side p =>
    match (w.allocator side).phase with
    | .idle => w.set side { w.allocator side with heap := Malloc.free (w.allocator side).heap p }
    | _ => w
  | .write side a b =>
    match (w.allocator side).phase with
    | .idle =>
      let h := (w.allocator side).heap
      w.set side { w.allocator side with heap := { h with mem := Function.update h.mem a b } }
    | _ => w
  | .frame .allocate => { w with pool := (Mmu.kernelAllocateFrame w.pool).2 }
  | .frame (.deallocate f) => { w with pool := (Mmu.kernelDeallocateFrame w.pool f).2 }

end Step

/-- The statics are zero and no page has been taken. -/
def Shared.start (pool : Mmu.State) : Shared where
  pool := pool
  allocator _ := ⟨⟨fun _ => 0, fun _ => 0, 0, fun _ => 0, 0⟩, .idle, []⟩
  grants := []

/-! ## Ranges -/

/-- Every byte of the range is on a page that the request obtained itself. -/
def Grant.Owns (g : Grant) : Prop :=
  ∀ a, g.ptr ≤ a → a < g.ptr + g.size.toNat → ∃ page ∈ g.obtained, page ≤ a ∧ a < page + 0x1000

/-- As far as the range reaches, each page that follows the first one was obtained as well. -/
def Grant.Follows (g : Grant) : Prop :=
  ∀ j, 0x1000 * j < headerBytes + g.size.toNat → g.obtained.getD 0 0 + 0x1000 * j ∈ g.obtained

/-- The request took new pages: as many as the loop of its class asks for, the range being behind the
header on the first one. -/
structure Grant.Created (g : Grant) : Prop where
  count : g.obtained.length = 1 + extraPages (sizeClass g.size.toNat)
  ptr : g.ptr = g.obtained.getD 0 0 + headerBytes

/-- A range on pages is on those that follow the first one. -/
theorem Grant.Created.owns_iff {g : Grant} (hg : g.Created)
    (haligned : ∀ page ∈ g.obtained, page % 0x1000 = 0) : g.Owns ↔ g.Follows := by
  have hfirst : g.obtained.getD 0 0 ∈ g.obtained := by
    have hpos : 0 < g.obtained.length := by
      rw [hg.count]
      omega
    rw [List.getD_eq_getElem _ _ hpos]
    exact List.getElem_mem hpos
  have hptr := hg.ptr
  rw [headerBytes] at hptr
  constructor
  · intro howns j hj
    rw [headerBytes] at hj
    rcases Nat.eq_zero_or_pos j with rfl | hpos
    · exact hfirst
    · -- the first byte of the page is in the range
      obtain ⟨page, hmem, hlo, hhi⟩ :=
        howns (g.obtained.getD 0 0 + 0x1000 * j) (by omega) (by omega)
      have hpage := haligned page hmem
      have hzero := haligned _ hfirst
      obtain rfl : page = g.obtained.getD 0 0 + 0x1000 * j := by omega
      exact hmem
  · intro hfollows a hlo hhi
    have hj := hfollows ((a - g.obtained.getD 0 0) / 0x1000) (by rw [headerBytes]; omega)
    exact ⟨_, hj, by omega, by omega⟩

/-- A byte of the range that is on none of the pages obtained. -/
theorem Grant.not_owns {g : Grant} {a : ℕ} (hlo : g.ptr ≤ a) (hhi : a < g.ptr + g.size.toNat)
    (hpages : ∀ page ∈ g.obtained, ¬ (page ≤ a ∧ a < page + 0x1000)) : ¬ g.Owns := by
  intro howns
  obtain ⟨page, hmem, hpage⟩ := howns a hlo hhi
  exact hpages page hmem hpage

/-! ## The invariant -/

/-- Where an allocator stands, its header page is the first page it obtained and holds the pointer
that the request will return. -/
def Allocator.Ready (a : Allocator) : Prop :=
  match a.phase with
  | .idle => True
  | .header size _ => 9 ≤ sizeClass size.toNat
  | .pages size header i => 9 ≤ sizeClass size.toNat ∧ i ≤ extraPages (sizeClass size.toNat) ∧
      a.obtained.length = i ∧ a.obtained.getD 0 0 = header ∧ 0 < i ∧
      headerHead a.heap.mem header = header + headerBytes ∧ ∀ page ∈ a.obtained, page % 0x1000 = 0

/-- What holds of the answered requests: reuse obtains nothing, and otherwise the request took new
pages; it owns its range exactly where it took pages that follow one another. -/
structure Grant.Sound (g : Grant) : Prop where
  taken : g.obtained = [] ∨ g.Created
  owns_iff : g.Owns ↔ g.obtained ≠ [] ∧ g.Follows

/-- A request that is answered by reuse owns nothing. -/
theorem Grant.sound_reuse {g : Grant} (hlarge : 9 ≤ sizeClass g.size.toNat) (hnil : g.obtained = []) :
    g.Sound where
  taken := .inl hnil
  owns_iff := by
    have hsize : 0 < g.size.toNat := by
      apply Nat.pos_of_ne_zero
      intro hzero
      rw [hzero] at hlarge
      exact absurd hlarge (by decide)
    refine ⟨fun howns => ?_, fun hboth => absurd hnil hboth.1⟩
    obtain ⟨page, hmem, -⟩ := howns g.ptr le_rfl (by omega)
    rw [hnil] at hmem
    exact absurd hmem List.not_mem_nil

/-- A request that took new pages. -/
theorem Grant.Created.sound {g : Grant} (hg : g.Created)
    (haligned : ∀ page ∈ g.obtained, page % 0x1000 = 0) : g.Sound where
  taken := .inr hg
  owns_iff := by
    rw [hg.owns_iff haligned]
    refine (and_iff_right fun hnil => ?_).symm
    have hcount := hg.count
    rw [hnil, List.length_nil] at hcount
    omega

structure SharedInv (w : Shared) : Prop where
  pool : Mmu.PagesOnly w.pool
  ready : ∀ side, (w.allocator side).Ready
  grants : ∀ g ∈ w.grants, g.Sound

theorem SharedInv.start {pool : Mmu.State} (hpool : Mmu.PagesOnly pool) :
    SharedInv (Shared.start pool) where
  pool := hpool
  ready _ := trivial
  grants _ hg := absurd hg List.not_mem_nil

section Invariant

variable {P : Mmu.Platform} {w : Shared} {side : Side} {size : UInt64}

/-- One allocator moves on. -/
theorem SharedInv.set (h : SharedInv w) {a : Allocator} (ha : a.Ready) :
    SharedInv (w.set side a) where
  pool := h.pool
  ready side' := by
    show (Function.update w.allocator side a side').Ready
    rcases eq_or_ne side' side with rfl | hne
    · rw [Function.update_self]
      exact ha
    · rw [Function.update_of_ne hne]
      exact h.ready side'
  grants := h.grants

theorem SharedInv.withPool (h : SharedInv w) {pool : Mmu.State} (hpool : Mmu.PagesOnly pool) :
    SharedInv { w with pool := pool } where
  pool := hpool
  ready := h.ready
  grants := h.grants

/-- A request is answered. -/
theorem SharedInv.answer (h : SharedInv w) {g : Grant} (hg : g.Sound) :
    SharedInv { w with grants := g :: w.grants } where
  pool := h.pool
  ready := h.ready
  grants g' hg' := by
    rcases List.mem_cons.mp hg' with rfl | hg'
    · exact hg
    · exact h.grants g' hg'

/-- Outside of large requests the heap of an allocator may change in any way. -/
theorem SharedInv.setHeap (h : SharedInv w) (hidle : (w.allocator side).phase = .idle)
    (heap : Heap) : SharedInv (w.set side { w.allocator side with heap := heap }) := by
  apply h.set
  unfold Allocator.Ready
  rw [hidle]
  trivial

theorem SharedInv.malloc (h : SharedInv w) (hidle : (w.allocator side).phase = .idle) (fuel : ℕ) :
    SharedInv (w.malloc P side size fuel) := by
  have hpool : Mmu.PagesOnly (Mmu.kernelExpandHeap P w.pool).2 := h.pool
  simp only [Shared.malloc]
  split_ifs with hsmall hexp hfirst
  · exact h.setHeap hidle _
  · exact (h.setHeap hidle _).withPool hpool
  · exact h.set (Nat.not_lt.mp hsmall)
  · split
    · exact h
    · split_ifs
      · -- a block is reused
        exact h.answer (Grant.sound_reuse (Nat.not_lt.mp hsmall) rfl)
      · exact h.set (Nat.not_lt.mp hsmall)

theorem Heap.addHeader_head (h : Heap) (last : Option ℕ) {page : ℕ} (hpage : page + 0x1000 ≤ 2 ^ 64)
    (size : UInt64) :
    headerHead (h.addHeader last page (sizeClass size.toNat)).mem page = page + headerBytes := by
  have hclass := (sizeClass_le size.toNat_lt).trans_lt (show 64 < 2 ^ 32 by decide)
  cases last with
  | none => exact (initBigHeader_spec hpage hclass).2.2.1
  | some last => exact (initBigHeader_spec hpage (by decide)).2.2.1

/-- **One frame for a large request.** -/
theorem SharedInv.request (h : SharedInv w) (hP : P.hhdmOffset % 0x1000 = 0) :
    SharedInv (w.request P side) := by
  have hpool : Mmu.PagesOnly (Mmu.kernelExpandHeap P w.pool).2 := h.pool
  have hbelow := h.pool.kernelExpandHeap hP
  have haligned := h.pool.kernelExpandHeap_aligned hP
  have hready := h.ready side
  unfold Allocator.Ready at hready
  simp only [Shared.request]
  generalize Mmu.kernelExpandHeap P w.pool = r at hpool hbelow haligned
  obtain ⟨page, pool⟩ := r
  cases hphase : (w.allocator side).phase with
  | idle => exact h
  | header size last =>
    rw [hphase] at hready
    have hhead := (w.allocator side).heap.addHeader_head last hbelow size
    have hpage : ∀ p ∈ [page], p % 0x1000 = 0 := by
      rintro p hp
      rw [List.mem_singleton.mp hp]
      exact haligned
    dsimp only
    split_ifs with hmore
    · have hnew : Allocator.Ready
          ⟨(w.allocator side).heap.addHeader last page (sizeClass size.toNat), .pages size page 1,
            [page]⟩ :=
        ⟨hready, hmore, rfl, rfl, Nat.one_pos, hhead, hpage⟩
      exact (h.set hnew).withPool hpool
    · -- the loop asks for no page behind the first
      have hcreated : Grant.Created ⟨size, headerHead ((w.allocator side).heap.addHeader last page
          (sizeClass size.toNat)).mem page, [page]⟩ := by
        refine ⟨?_, hhead⟩
        rw [List.length_singleton]
        dsimp only
        omega
      have hset : SharedInv (w.set side
          ⟨(w.allocator side).heap.addHeader last page (sizeClass size.toNat), .idle, []⟩) :=
        h.set trivial
      exact (hset.withPool hpool).answer (hcreated.sound hpage)
  | pages size header i =>
    rw [hphase] at hready
    obtain ⟨hlarge, hi, hlen, hheader, hpos, hhead, hpages⟩ := hready
    have hobtained : ∀ p ∈ (w.allocator side).obtained ++ [page], p % 0x1000 = 0 := by
      intro p hp
      rcases List.mem_append.mp hp with hp | hp
      · exact hpages p hp
      · rw [List.mem_singleton.mp hp]
        exact haligned
    have hgetD : ((w.allocator side).obtained ++ [page]).getD 0 0 = header := by
      rw [List.getD_append _ _ _ _ (by omega)]
      exact hheader
    dsimp only
    split_ifs with hmore
    · have hlen' : ((w.allocator side).obtained ++ [page]).length = i + 1 := by
        rw [List.length_append, hlen]
        rfl
      have hnext : Allocator.Ready ⟨{ (w.allocator side).heap with
          expanded := (w.allocator side).heap.expanded + 1 }, .pages size header (i + 1),
          (w.allocator side).obtained ++ [page]⟩ :=
        ⟨hlarge, hmore, hlen', hgetD, Nat.succ_pos i, hhead, hobtained⟩
      exact (h.set hnext).withPool hpool
    · -- that was the last page
      have hcreated : Grant.Created ⟨size, headerHead (w.allocator side).heap.mem header,
          (w.allocator side).obtained ++ [page]⟩ := by
        constructor
        · rw [List.length_append, hlen, List.length_singleton]
          dsimp only
          omega
        · rw [hgetD]
          exact hhead
      have hset : SharedInv (w.set side ⟨{ (w.allocator side).heap with
          expanded := (w.allocator side).heap.expanded + 1 }, .idle, []⟩) := h.set trivial
      exact (hset.withPool hpool).answer (hcreated.sound hobtained)

/-- **Step lemma.** -/
theorem SharedInv.step (h : SharedInv w) (hP : P.hhdmOffset % 0x1000 = 0) (e : HeapEvent) :
    SharedInv (w.step P e) := by
  cases e with
  | malloc side size fuel =>
    simp only [Shared.step]
    split
    · exact h.malloc ‹_› fuel
    · exact h
  | request side => exact h.request hP
  | free side p =>
    simp only [Shared.step]
    split
    · exact h.setHeap ‹_› _
    · exact h
  | write side a b =>
    simp only [Shared.step]
    split
    · exact h.setHeap ‹_› _
    · exact h
  | frame c =>
    cases c with
    | allocate => exact ⟨h.pool, h.ready, h.grants⟩
    | deallocate f => exact h.withPool (h.pool.deallocate f)

end Invariant

/-! ## Large requests without interruption -/

/-- The addresses that the next `n` calls of `KernelExpandHeap` return. -/
def poolPages (P : Mmu.Platform) (pool : Mmu.State) (n : ℕ) : List ℕ :=
  (List.range n).map fun j => (pool.memList (pool.stackPosition + j) + P.hhdmOffset) % 2 ^ 64

/-- The heap with the pool as its supply of pages. -/
def Heap.onPool (P : Mmu.Platform) (pool : Mmu.State) (h : Heap) : Heap :=
  { h with pages := fun i =>
      (pool.memList (pool.stackPosition + (i - h.expanded)) + P.hhdmOffset) % 2 ^ 64 }

section Uninterrupted

variable {P : Mmu.Platform} {w : Shared} {side : Side} {size : UInt64} {h h' : Heap}

theorem poolPages_succ (pool : Mmu.State) (n : ℕ) :
    poolPages P pool (n + 1) = (Mmu.kernelExpandHeap P pool).1 ::
      poolPages P (Mmu.kernelExpandHeap P pool).2 n := by
  rw [poolPages, List.range_succ_eq_map, List.map_cons, List.map_map]
  congr 1
  apply List.map_congr_left
  intro j _
  simp only [Function.comp_apply, Mmu.kernelExpandHeap, Mmu.kernelAllocateFrame]
  congr 3
  omega

/-- **The loop over the pages** behind the header. -/
theorem Shared.requests_pages {header i k : ℕ} {obtained : List ℕ}
    (hside : w.allocator side = ⟨h, .pages size header i, obtained⟩)
    (hk : i + k = extraPages (sizeClass size.toNat)) :
    run (Shared.step P) w (List.replicate (k + 1) (.request side)) =
      { pool := { w.pool with stackPosition := w.pool.stackPosition + (k + 1) }
        allocator := Function.update w.allocator side
          ⟨{ h with expanded := h.expanded + (k + 1) }, .idle, []⟩
        grants := ⟨size, headerHead h.mem header, obtained ++ poolPages P w.pool (k + 1)⟩ ::
          w.grants } := by
  induction k generalizing w h i obtained with
  | zero =>
    have hlast : ¬ i < extraPages (sizeClass size.toNat) := by omega
    simp only [List.replicate, run_cons, run_nil, Shared.step, Shared.request, hside, hlast,
      if_false, Shared.set, poolPages_succ]
    rfl
  | succ k ih =>
    have hmore : i < extraPages (sizeClass size.toNat) := by omega
    have hstep : w.step P (.request side) =
        { w.set side ⟨{ h with expanded := h.expanded + 1 }, .pages size header (i + 1),
            obtained ++ [(Mmu.kernelExpandHeap P w.pool).1]⟩ with
          pool := (Mmu.kernelExpandHeap P w.pool).2 } := by
      simp only [Shared.step, Shared.request, hside, hmore, if_true]
    rw [List.replicate_succ, run_cons, hstep, ih (Function.update_self ..) (by omega)]
    have hposition : w.pool.stackPosition + 1 + (k + 1) = w.pool.stackPosition + (k + 1 + 1) := by
      omega
    have hexpanded : h.expanded + 1 + (k + 1) = h.expanded + (k + 1 + 1) := by omega
    simp only [Shared.set, Function.update_idem, poolPages_succ w.pool (k + 1), List.append_assoc,
      List.singleton_append, Mmu.kernelExpandHeap, Mmu.kernelAllocateFrame, hposition, hexpanded]

/-- **A large request from its first page on.** -/
theorem Shared.requests_header {last : Option ℕ}
    (hside : w.allocator side = ⟨h, .header size last, []⟩) :
    run (Shared.step P) w
        (List.replicate (extraPages (sizeClass size.toNat) + 1) (.request side)) =
      { pool := { w.pool with
          stackPosition := w.pool.stackPosition + (extraPages (sizeClass size.toNat) + 1) }
        allocator := Function.update w.allocator side
          ⟨expandMore (h.addHeader last (Mmu.kernelExpandHeap P w.pool).1 (sizeClass size.toNat))
            (sizeClass size.toNat), .idle, []⟩
        grants := ⟨size, headerHead (h.addHeader last (Mmu.kernelExpandHeap P w.pool).1
            (sizeClass size.toNat)).mem (Mmu.kernelExpandHeap P w.pool).1,
          poolPages P w.pool (extraPages (sizeClass size.toNat) + 1)⟩ :: w.grants } := by
  rcases Nat.eq_zero_or_pos (extraPages (sizeClass size.toNat)) with hzero | hpos
  · -- no page behind the header page
    have hnone : ¬ 1 ≤ extraPages (sizeClass size.toNat) := by omega
    have hmore : expandMore
        (h.addHeader last (Mmu.kernelExpandHeap P w.pool).1 (sizeClass size.toNat))
        (sizeClass size.toNat) =
        h.addHeader last (Mmu.kernelExpandHeap P w.pool).1 (sizeClass size.toNat) := by
      rw [expandMore, hzero]
      rfl
    rw [hmore, hzero]
    simp only [List.replicate, run_cons, run_nil, Shared.step, Shared.request, hside, hnone, if_false,
      Shared.set, poolPages_succ]
    rfl
  obtain ⟨k, hk⟩ : ∃ k, extraPages (sizeClass size.toNat) = k + 1 :=
    ⟨extraPages (sizeClass size.toNat) - 1, by omega⟩
  have hone : 1 ≤ extraPages (sizeClass size.toNat) := hpos
  have hstep : w.step P (.request side) =
      { w.set side ⟨h.addHeader last (Mmu.kernelExpandHeap P w.pool).1 (sizeClass size.toNat),
          .pages size (Mmu.kernelExpandHeap P w.pool).1 1, [(Mmu.kernelExpandHeap P w.pool).1]⟩ with
        pool := (Mmu.kernelExpandHeap P w.pool).2 } := by
    simp only [Shared.step, Shared.request, hside, hone, if_true]
  have hmore : expandMore
      (h.addHeader last (Mmu.kernelExpandHeap P w.pool).1 (sizeClass size.toNat))
      (sizeClass size.toNat) =
      { h.addHeader last (Mmu.kernelExpandHeap P w.pool).1 (sizeClass size.toNat) with
        expanded := (h.addHeader last (Mmu.kernelExpandHeap P w.pool).1
          (sizeClass size.toNat)).expanded + (k + 1) } := by
    rw [← hk]
    rfl
  have hposition : w.pool.stackPosition + 1 + (k + 1) = w.pool.stackPosition + (k + 1 + 1) := by
    omega
  rw [List.replicate_succ, run_cons, hstep, hmore, hk,
    Shared.requests_pages (Function.update_self ..) (by omega), poolPages_succ w.pool (k + 1)]
  simp only [Shared.set, Function.update_idem, List.singleton_append, Mmu.kernelExpandHeap,
    Mmu.kernelAllocateFrame, hposition]

/-- **Refinement**: a large request that nobody interrupts does what `mallocBig` does with the pool
as its supply, and it obtains the next pages of the pool. -/
theorem Shared.uninterrupted {p : ℕ} (hside : w.allocator side = ⟨h, .idle, []⟩)
    (hlarge : 9 ≤ sizeClass size.toNat)
    (hcall : mallocBig (h.onPool P w.pool) (sizeClass size.toNat) = some (p, h')) :
    ∃ n, run (Shared.step P) w
        (.malloc side size h.expanded :: List.replicate n (.request side)) =
      { pool := { w.pool with stackPosition := w.pool.stackPosition + n }
        allocator := Function.update w.allocator side ⟨{ h' with pages := h.pages }, .idle, []⟩
        grants := ⟨size, p, poolPages P w.pool n⟩ :: w.grants } := by
  have hnot : ¬ sizeClass size.toNat < 9 := by omega
  have hpage : (w.pool.memList (w.pool.stackPosition + (h.expanded - h.expanded)) + P.hhdmOffset) %
      2 ^ 64 = (Mmu.kernelExpandHeap P w.pool).1 := by
    rw [Nat.sub_self]
    rfl
  have hidle : w.step P (.malloc side size h.expanded) = w.malloc P side size h.expanded := by
    simp only [Shared.step, hside]
  -- where `malloc` goes on to take a header page, the rest is the requests for the pages
  have hnew : ∀ last, w.malloc P side size h.expanded = w.set side ⟨h, .header size last, []⟩ →
      headerHead (h.addHeader last (Mmu.kernelExpandHeap P w.pool).1 (sizeClass size.toNat)).mem
        (Mmu.kernelExpandHeap P w.pool).1 = p →
      expandMore (h.addHeader last (Mmu.kernelExpandHeap P w.pool).1 (sizeClass size.toNat))
        (sizeClass size.toNat) = { h' with pages := h.pages } →
      ∃ n, run (Shared.step P) w
          (.malloc side size h.expanded :: List.replicate n (.request side)) =
        { pool := { w.pool with stackPosition := w.pool.stackPosition + n }
          allocator := Function.update w.allocator side ⟨{ h' with pages := h.pages }, .idle, []⟩
          grants := ⟨size, p, poolPages P w.pool n⟩ :: w.grants } := by
    intro last hmalloc hptr hheap
    refine ⟨extraPages (sizeClass size.toNat) + 1, ?_⟩
    rw [run_cons, hidle, hmalloc, Shared.requests_header (Function.update_self ..)]
    simp only [Shared.set, Function.update_idem, hptr, hheap]
  rw [mallocBig] at hcall
  by_cases hfirst : h.firstBigBinHeader = 0
  · rw [if_pos (show (h.onPool P w.pool).firstBigBinHeader = 0 from hfirst)] at hcall
    simp only [kernelExpandHeap, Heap.onPool, hpage] at hcall
    obtain ⟨hptr, rfl⟩ := Prod.mk.inj (Option.some.inj hcall)
    refine hnew none ?_ hptr rfl
    simp only [Shared.malloc, hside, hnot, if_false, hfirst, if_true]
  · rw [if_neg (show (h.onPool P w.pool).firstBigBinHeader ≠ 0 from hfirst)] at hcall
    have hmem : (h.onPool P w.pool).mem = h.mem := rfl
    have hexp : (h.onPool P w.pool).expanded = h.expanded := rfl
    have hbig : (h.onPool P w.pool).firstBigBinHeader = h.firstBigBinHeader := rfl
    simp only [hmem, hexp, hbig] at hcall
    cases hwalk : walk (headerNext h.mem) (fun t => headerNext h.mem t == 0 ||
        (headerUsed h.mem t == 0 && decide ((sizeClass size.toNat : ℤ) ≤ headerSize h.mem t)))
        h.expanded h.firstBigBinHeader with
    | none =>
      rw [hwalk] at hcall
      exact absurd hcall (by simp)
    | some traversal =>
      rw [hwalk] at hcall
      dsimp only at hcall
      by_cases hnext : headerNext h.mem traversal = 0
      · rw [if_neg (not_not.mpr hnext)] at hcall
        simp only [kernelExpandHeap, Heap.onPool, hpage] at hcall
        obtain ⟨hptr, rfl⟩ := Prod.mk.inj (Option.some.inj hcall)
        refine hnew (some traversal) ?_ hptr rfl
        simp only [Shared.malloc, hside, hnot, if_false, hfirst, hwalk, hnext, ne_eq,
          not_true_eq_false]
      · -- a block is reused: no page is asked for
        rw [if_pos hnext] at hcall
        obtain ⟨rfl, rfl⟩ := Prod.mk.inj (Option.some.inj hcall)
        have hself : (⟨{ h.onPool P w.pool with pages := h.pages }, .idle, []⟩ : Allocator) =
            w.allocator side := hside.symm
        refine ⟨0, ?_⟩
        rw [run_cons, hidle, hself, Function.update_eq_self]
        simp only [Shared.malloc, hside, hnot, if_false, hfirst, hwalk, hnext, ne_eq,
          not_false_eq_true, if_true]
        rfl

end Uninterrupted

/-- **Large ranges**: whatever memory map the pool was filled from and however the requests of the
two heaps and of others are interleaved, a large request that is not answered by reuse takes as many
pages as the loop of its class asks for, and it owns its range exactly where it took pages that follow
one another as far as the range reaches. -/
theorem large_ranges_owned {P : Mmu.Platform} (hP : P.hhdmOffset % 0x1000 = 0)
    {es : List Mmu.MemmapEntry} (hes : ∀ e ∈ es, e.base % 0x1000 = 0) {s₀ s : Mmu.State}
    (hzero : ∀ i, s₀.memList i = 0)
    (hinit : Mmu.kernelInitializeMemStack (some es) s₀ = .ok s) (events : List HeapEvent) :
    Everywhere (Shared.step P) (fun w => ∀ g ∈ w.grants, g.Sound) (Shared.start s) events := by
  have hpages : Mmu.PagesOnly s₀ := fun i => by rw [hzero i]
  have hstart := SharedInv.start (hpages.boot hes hinit)
  have halong : Along (Shared.step P) (fun _ _ => True) (Shared.start s) events :=
    along_const.mpr fun _ _ => trivial
  refine halong.everywhere hstart ?_ ?_
  · exact fun w e h _ => h.step hP e
  · exact fun w h => h.grants

/-- One usable region. -/
def oneRegion : List Mmu.MemmapEntry := [⟨0x1000, 0x8000, 0⟩]

/-- A usable page, and more of them behind a gap. -/
def gapMap : List Mmu.MemmapEntry := [⟨0x1000, 0x1000, 0⟩, ⟨0x5000, 0x5000, 0⟩]

/-- A large request of each heap, one after the other. -/
def twoRequests : List HeapEvent :=
  [.malloc .kernel 4095 0, .request .kernel, .request .kernel, .request .kernel,
    .malloc .user 4095 0, .request .user, .request .user, .request .user]

/-- The same requests, with the second one coming in between the pages of the first. -/
def twoInterleaved : List HeapEvent :=
  [.malloc .kernel 4095 0, .request .kernel, .malloc .user 4095 0, .request .user,
    .request .kernel, .request .kernel, .request .user, .request .user]

/-- Two large blocks of one heap, the first of them freed and used again. -/
def reusedBlock : List HeapEvent :=
  [.malloc .kernel 4095 0, .request .kernel, .request .kernel, .request .kernel,
    .malloc .kernel 4095 1, .request .kernel, .request .kernel, .request .kernel,
    .free .kernel 0xFFFF800000001018, .malloc .kernel 4095 1]

/-- The two requests in one region. -/
theorem twoRequests_grants :
    ∃ s, Mmu.kernelInitializeMemStack (some oneRegion) Mmu.emptyPool = .ok s ∧
      (run (Shared.step Mmu.bootPlatform) (Shared.start s) twoRequests).grants =
        [⟨4095, 0xFFFF800000004018,
            [0xFFFF800000004000, 0xFFFF800000005000, 0xFFFF800000006000]⟩,
          ⟨4095, 0xFFFF800000001018,
            [0xFFFF800000001000, 0xFFFF800000002000, 0xFFFF800000003000]⟩] :=
  ⟨_, rfl, by decide⟩

/-- Both own their ranges. -/
theorem large_ranges_owned_oneRegion :
    ∃ s, Mmu.kernelInitializeMemStack (some oneRegion) Mmu.emptyPool = .ok s ∧
      (run (Shared.step Mmu.bootPlatform) (Shared.start s) twoRequests).grants.length = 2 ∧
      ∀ g ∈ (run (Shared.step Mmu.bootPlatform) (Shared.start s) twoRequests).grants, g.Owns := by
  obtain ⟨s, hinit, hlist⟩ := twoRequests_grants
  have hpages : ∀ e ∈ oneRegion, e.base % 0x1000 = 0 := by decide
  refine ⟨s, hinit, by rw [hlist]; rfl, fun g hg => ?_⟩
  have hsound := (large_ranges_owned (by decide) hpages (fun _ => rfl) hinit twoRequests).last g hg
  refine hsound.owns_iff.mpr ?_
  -- 4095 bytes behind the header reach into the second page
  have htwo {j : ℕ} (hj : 0x1000 * j < headerBytes + (4095 : UInt64).toNat) : j = 0 ∨ j = 1 := by
    have hbytes : headerBytes + (4095 : UInt64).toNat = 4119 := by decide
    omega
  rw [hlist, List.mem_cons, List.mem_singleton] at hg
  rcases hg with rfl | rfl
  · refine ⟨List.cons_ne_nil _ _, fun j hj => ?_⟩
    rcases htwo hj with rfl | rfl
    · decide
    · decide
  · refine ⟨List.cons_ne_nil _ _, fun j hj => ?_⟩
    rcases htwo hj with rfl | rfl
    · decide
    · decide

/-- Behind a gap of the memory map, between the frames of another request and for a block that is
used again, the range is not one of the request's own frames. -/
theorem range_not_owned :
    (∃ s, Mmu.kernelInitializeMemStack (some gapMap) Mmu.emptyPool = .ok s ∧
      ∃ g ∈ (run (Shared.step Mmu.bootPlatform) (Shared.start s) twoRequests).grants, ¬ g.Owns) ∧
    (∃ s, Mmu.kernelInitializeMemStack (some oneRegion) Mmu.emptyPool = .ok s ∧
      (∃ g ∈ (run (Shared.step Mmu.bootPlatform) (Shared.start s) twoInterleaved).grants,
        ¬ g.Owns) ∧
      ∃ g ∈ (run (Shared.step Mmu.bootPlatform) (Shared.start s) reusedBlock).grants,
        ¬ g.Owns) := by
  refine ⟨⟨_, rfl, ?_⟩, ⟨_, rfl, ?_, ?_⟩⟩
  · -- the page behind the first one is not usable
    refine ⟨⟨4095, 0xFFFF800000001018,
      [0xFFFF800000001000, 0xFFFF800000005000, 0xFFFF800000006000]⟩, by decide, ?_⟩
    exact Grant.not_owns (a := 0xFFFF800000002000) (by decide) (by decide) (by decide)
  · -- it is the header page of the other heap
    refine ⟨⟨4095, 0xFFFF800000001018,
      [0xFFFF800000001000, 0xFFFF800000003000, 0xFFFF800000004000]⟩, by decide, ?_⟩
    exact Grant.not_owns (a := 0xFFFF800000002000) (by decide) (by decide) (by decide)
  · refine ⟨⟨4095, 0xFFFF800000001018, []⟩, by decide, ?_⟩
    exact Grant.not_owns (a := 0xFFFF800000001018) (by decide) (by decide) (by decide)

end Cutesugar.Kernel.Malloc
