import Cutesugar.Kernel.Arch.Mmu
import Cutesugar.Lib.ArrayStack
import Cutesugar.Lib.Run
import Mathlib.Data.List.Perm.Basic

/-!
# The pool of frames (`kernel/arch/mmu.c`)

At boot the pages of the usable regions of the memory map are written into `mem_list`, which is
from then on a stack of free frames that grows downwards.

## Structure

- `kernelInitializeMemStack`: the two loops, with the bounds that C leaves to the programmer;
- `filled_iff`: the memory maps that are taken in;
- `PoolRun`: frames that are handed out and given back, and `frames_conserved`.
-/

namespace Cutesugar.Kernel.Mmu

open Lib

/-! ## The memory map -/

/-- `struct limine_memmap_entry`. -/
structure MemmapEntry where
  base : ℕ
  length : ℕ
  type : ℕ

/-- The slots of `mem_list`. -/
def memListSlots : ℕ := 0x40000

/-- Why the initialization does not return. -/
inductive MemmapFault where
  /-- the boot loader gave no memory map -/
  | halt
  /-- a write behind the end of `mem_list` -/
  | overflow
  /-- the counter of the entries is an `int` -/
  | counter
  deriving DecidableEq

/-- The inner loop: the pages from `base` on, with `room` slots left behind `pos`. -/
def fillRegion (limit : ℕ) : ℕ → (ℕ → ℕ) → ℕ → ℕ → Except MemmapFault ((ℕ → ℕ) × ℕ)
  | 0, memList, pos, base => if base < limit then .error .overflow else .ok (memList, pos)
  | room + 1, memList, pos, base =>
    if base < limit then
      fillRegion limit room (Function.update memList pos base) (pos + 1)
        ((base + 0x1000) % 2 ^ 64)
    else .ok (memList, pos)

/-- The body of the outer loop. -/
def fillEntry (e : MemmapEntry) (memList : ℕ → ℕ) (pos : ℕ) : Except MemmapFault ((ℕ → ℕ) × ℕ) :=
  if e.type = 0 then
    fillRegion ((e.base + e.length) % 2 ^ 64) (memListSlots - pos) memList pos e.base
  else .ok (memList, pos)

/-- The outer loop, from entry `i` on. -/
def fillEntries : List MemmapEntry → ℕ → (ℕ → ℕ) → ℕ → Except MemmapFault ((ℕ → ℕ) × ℕ)
  | [], _, memList, pos => .ok (memList, pos)
  | e :: es, i, memList, pos => do
    let r ← fillEntry e memList pos
    if i = 2 ^ 31 - 1 then .error .counter else fillEntries es (i + 1) r.1 r.2

def kernelInitializeMemStack (memmap : Option (List MemmapEntry)) (s : State) :
    Except MemmapFault State :=
  match memmap with
  | none => .error .halt
  | some entries => (fillEntries entries 0 s.memList 0).map fun r => { s with memList := r.1 }

def kernelDeallocateFrame (s : State) (memoryAddress : ℕ) : ℤ × State :=
  if memoryAddress &&& 0xFFF ≠ 0 then (-1, s)
  else if s.stackPosition = 0 then (-1, s)
  else
    (0, { s with
      memList := Function.update s.memList (s.stackPosition - 1) memoryAddress
      stackPosition := s.stackPosition - 1 })

/-! ## Usable pages -/

/-- `k` pages from `base` on. -/
def pagesFrom (base k : ℕ) : List ℕ := (List.range k).map fun j => base + 0x1000 * j

/-- The pages of a region. -/
def MemmapEntry.pages (e : MemmapEntry) : List ℕ := pagesFrom e.base (e.length / 0x1000)

/-- The pages of the usable regions, in order. -/
def usablePages (entries : List MemmapEntry) : List ℕ :=
  (entries.filter (·.type = 0)).flatMap MemmapEntry.pages

/-- A region of whole pages. -/
structure MemmapEntry.Paged (e : MemmapEntry) : Prop where
  base_mod : e.base % 0x1000 = 0
  length_mod : e.length % 0x1000 = 0
  base_lt : e.base < 2 ^ 64
  length_lt : e.length < 2 ^ 64

instance (e : MemmapEntry) : Decidable e.Paged :=
  decidable_of_iff (e.base % 0x1000 = 0 ∧ e.length % 0x1000 = 0 ∧ e.base < 2 ^ 64 ∧
    e.length < 2 ^ 64) ⟨fun ⟨h₁, h₂, h₃, h₄⟩ => ⟨h₁, h₂, h₃, h₄⟩, fun ⟨h₁, h₂, h₃, h₄⟩ => ⟨h₁, h₂, h₃, h₄⟩⟩

/-- The end of the region is an address, unless there is nothing in it. -/
def MemmapEntry.Ends (e : MemmapEntry) : Prop := e.length ≠ 0 → e.base + e.length < 2 ^ 64

instance (e : MemmapEntry) : Decidable e.Ends := inferInstanceAs (Decidable (_ → _))

variable {e : MemmapEntry} {es : List MemmapEntry} {memList : ℕ → ℕ} {pos room i k base : ℕ}

@[simp] theorem length_pagesFrom : (pagesFrom base k).length = k := by simp [pagesFrom]

theorem pagesFrom_succ : pagesFrom base (k + 1) = base :: pagesFrom (base + 0x1000) k := by
  rw [pagesFrom, List.range_succ_eq_map, List.map_cons, List.map_map]
  congr 1
  apply List.map_congr_left
  intro j _
  simp only [Function.comp_apply]
  omega

/-! ## The loops -/

/-- **Inner loop**: `k` pages go into the next `k` slots, or there is no room for them. -/
theorem fillRegion_pages {limit : ℕ} (hlimit : limit = base + 0x1000 * k) (h : limit < 2 ^ 64) :
    fillRegion limit room memList pos base =
      if k ≤ room then .ok (fill memList pos (pagesFrom base k), pos + k)
      else .error .overflow := by
  induction k generalizing room memList pos base with
  | zero =>
    have hdone : ¬ base < limit := by omega
    rw [if_pos (Nat.zero_le _), show pagesFrom base 0 = [] from rfl, fill_nil]
    cases room <;> rw [fillRegion, if_neg hdone] <;> rfl
  | succ k ih =>
    have hmore : base < limit := by omega
    cases room with
    | zero => rw [fillRegion, if_pos hmore, if_neg (Nat.not_succ_le_zero k)]
    | succ room =>
      have hnext : (base + 0x1000) % 2 ^ 64 = base + 0x1000 := Nat.mod_eq_of_lt (by omega)
      have hsum : pos + 1 + k = pos + (k + 1) := by omega
      rw [fillRegion, if_pos hmore, hnext, ih (by omega), pagesFrom_succ, fill_cons, hsum]
      simp only [Nat.succ_le_succ_iff]

/-- A region whose end is taken to be in front of it is skipped. -/
theorem fillRegion_of_le {limit : ℕ} (h : limit ≤ base) :
    fillRegion limit room memList pos base = .ok (memList, pos) := by
  cases room <;> rw [fillRegion, if_neg (Nat.not_lt.mpr h)]

/-- The pages that the inner loop comes to. -/
def MemmapEntry.written (e : MemmapEntry) : List ℕ := if e.Ends then e.pages else []

/-- The pages that the loops come to. -/
def writtenPages (entries : List MemmapEntry) : List ℕ :=
  (entries.filter (·.type = 0)).flatMap MemmapEntry.written

theorem fillRegion_entry (h : e.Paged) :
    fillRegion ((e.base + e.length) % 2 ^ 64) room memList pos e.base =
      if e.written.length ≤ room then
        .ok (fill memList pos e.written, pos + e.written.length)
      else .error .overflow := by
  obtain ⟨-, hlength, hbase, hlt⟩ := h
  by_cases hends : e.Ends
  · have hsum : (e.base + e.length) % 2 ^ 64 = e.base + e.length := by
      rcases eq_or_ne e.length 0 with hzero | hne
      · rw [hzero, Nat.add_zero, Nat.mod_eq_of_lt hbase]
      · exact Nat.mod_eq_of_lt (hends hne)
    rw [MemmapEntry.written, if_pos hends, MemmapEntry.pages, length_pagesFrom]
    rw [fillRegion_pages (k := e.length / 0x1000)]
    · omega
    · exact Nat.mod_lt _ (by decide)
  · -- the end wraps around, so it is not behind the base
    rw [MemmapEntry.written, if_neg hends]
    simp only [MemmapEntry.Ends, not_forall] at hends
    obtain ⟨-, hwrap⟩ := hends
    rw [fillRegion_of_le (by omega), if_pos (by simp), fill_nil]
    rfl

/-- **One entry**. -/
theorem fillEntry_eq (h : e.Paged) :
    fillEntry e memList pos =
      if (if e.type = 0 then e.written else []).length ≤ memListSlots - pos then
        .ok (fill memList pos (if e.type = 0 then e.written else []),
          pos + (if e.type = 0 then e.written else []).length)
      else .error .overflow := by
  by_cases htype : e.type = 0
  · simp only [fillEntry, if_pos htype, fillRegion_entry h]
  · simp only [fillEntry, if_neg htype, List.length_nil, Nat.zero_le, if_true, fill_nil,
      Nat.add_zero]

theorem writtenPages_cons : writtenPages (e :: es) =
    (if e.type = 0 then e.written else []) ++ writtenPages es := by
  by_cases htype : e.type = 0
  · simp [writtenPages, htype]
  · simp [writtenPages, htype]

/-- **Outer loop**: the pages go into the next slots, if there is room for them and the counter
does not run over. -/
theorem fillEntries_eq (memList : ℕ → ℕ) (hes : ∀ e ∈ es, e.Paged) (hpos : pos ≤ memListSlots)
    (hi : i < 2 ^ 31) :
    (pos + (writtenPages es).length ≤ memListSlots ∧ i + es.length < 2 ^ 31 →
      fillEntries es i memList pos =
        .ok (fill memList pos (writtenPages es), pos + (writtenPages es).length)) ∧
    (¬ (pos + (writtenPages es).length ≤ memListSlots ∧ i + es.length < 2 ^ 31) →
      ∀ r, fillEntries es i memList pos ≠ .ok r) := by
  induction es generalizing i memList pos with
  | nil =>
    refine ⟨fun _ => ?_, fun hnot => absurd ⟨hpos, hi⟩ hnot⟩
    rw [show writtenPages [] = [] from rfl, fill_nil]
    rfl
  | cons e es ih =>
    have he := hes e (List.mem_cons_self ..)
    have hes' : ∀ e ∈ es, e.Paged := fun x hx => hes x (List.mem_cons_of_mem e hx)
    rw [writtenPages_cons, fillEntries, fillEntry_eq he, List.length_append, List.length_cons]
    generalize (if e.type = 0 then e.written else []) = xs
    by_cases hroom : xs.length ≤ memListSlots - pos
    · -- `i++` overflows behind the last entry that an `int` can count
      by_cases hcounter : i = 2 ^ 31 - 1
      · refine ⟨fun hfits => ?_, fun _ r => ?_⟩
        · omega
        · simp only [if_pos hroom, bind, Except.bind, if_pos hcounter]
          intro herr
          cases herr
      · have hpos' : pos + xs.length ≤ memListSlots := by omega
        have hi' : i + 1 < 2 ^ 31 := by omega
        obtain ⟨hok, herror⟩ := ih (fill memList pos xs) hes' hpos' hi'
        simp only [if_pos hroom, bind, Except.bind, if_neg hcounter]
        constructor
        · intro hfits
          rw [hok (by omega), fill_append, Nat.add_assoc]
        · intro hnot
          exact herror (by omega)
    · refine ⟨fun hfits => ?_, fun _ r => ?_⟩
      · omega
      · simp only [if_neg hroom, bind, Except.bind]
        intro herr
        cases herr

/-! ## The memory maps that are taken in -/

/-- The slots of `mem_list` hold the usable pages in order, and nothing else is written. -/
def Filled (entries : List MemmapEntry) (s : State) : Prop :=
  ∃ s', kernelInitializeMemStack (some entries) s = .ok s' ∧
    window s'.memList 0 (usablePages entries).length = usablePages entries ∧
    ∀ i, (usablePages entries).length ≤ i → s'.memList i = s.memList i

theorem writtenPages_eq (h : ∀ e ∈ es, e.type = 0 → e.Ends) : writtenPages es = usablePages es := by
  rw [writtenPages, usablePages]
  apply List.flatMap_congr
  intro e he
  rw [List.mem_filter, decide_eq_true_eq] at he
  exact if_pos (h e he.1 he.2)

theorem usablePages_cons : usablePages (e :: es) =
    (if e.type = 0 then e.pages else []) ++ usablePages es := by
  by_cases htype : e.type = 0
  · simp [usablePages, htype]
  · simp [usablePages, htype]

/-- A region that is skipped has pages, and none of them is page 0. -/
theorem countP_written_lt (h : e.Paged) (hends : ¬ e.Ends) :
    e.written.countP (· ≠ 0) < e.pages.countP (· ≠ 0) := by
  obtain ⟨-, hlength, -, hlt⟩ := h
  rw [MemmapEntry.written, if_neg hends]
  simp only [MemmapEntry.Ends, not_forall] at hends
  obtain ⟨hne, hwrap⟩ := hends
  have hpages : e.length / 0x1000 = e.length / 0x1000 - 1 + 1 := by omega
  have hbase : e.base ≠ 0 := by omega
  rw [List.countP_nil, MemmapEntry.pages, hpages, pagesFrom_succ]
  exact List.countP_pos_iff.mpr ⟨e.base, List.mem_cons_self .., by simpa using hbase⟩

/-- The pages that are lost are missed. -/
theorem countP_writtenPages (hes : ∀ e ∈ es, e.Paged) :
    (writtenPages es).countP (· ≠ 0) ≤ (usablePages es).countP (· ≠ 0) ∧
    ((∃ e ∈ es, e.type = 0 ∧ ¬ e.Ends) →
      (writtenPages es).countP (· ≠ 0) < (usablePages es).countP (· ≠ 0)) := by
  induction es with
  | nil => exact ⟨le_rfl, fun ⟨e, he, _⟩ => absurd he List.not_mem_nil⟩
  | cons e es ih =>
    have he := hes e (List.mem_cons_self ..)
    obtain ⟨hle, hlt⟩ := ih fun x hx => hes x (List.mem_cons_of_mem e hx)
    rw [writtenPages_cons, usablePages_cons, List.countP_append, List.countP_append]
    by_cases hskip : e.type = 0 ∧ ¬ e.Ends
    · have hfirst := countP_written_lt he hskip.2
      rw [if_pos hskip.1, if_pos hskip.1]
      exact ⟨by omega, fun _ => by omega⟩
    · have hfirst : (if e.type = 0 then e.written else []) =
          if e.type = 0 then e.pages else [] := by
        by_cases htype : e.type = 0
        · rw [if_pos htype, if_pos htype, MemmapEntry.written,
            if_pos (not_not.mp fun hends => hskip ⟨htype, hends⟩)]
        · rw [if_neg htype, if_neg htype]
      rw [hfirst]
      refine ⟨Nat.add_le_add_left hle _, fun ⟨x, hx, hbad⟩ => Nat.add_lt_add_left (hlt ?_) _⟩
      rcases List.mem_cons.mp hx with rfl | hx
      · exact absurd hbad hskip
      · exact ⟨x, hx, hbad⟩

/-- In an array of zeros only the items written are not zero. -/
theorem countP_window_fill_le (xs : List ℕ) (n : ℕ) (h : ∀ i, memList i = 0) :
    (window (fill memList 0 xs) 0 n).countP (· ≠ 0) ≤ xs.countP (· ≠ 0) := by
  have hxs := window_fill memList 0 xs
  rw [Nat.zero_add] at hxs
  rcases Nat.le_total n xs.length with hle | hle
  · have hsplit : window (fill memList 0 xs) 0 n ++ window (fill memList 0 xs) n xs.length = xs :=
      (window_append (Nat.zero_le n) hle).trans hxs
    have hcount := congrArg (List.countP (· ≠ 0)) hsplit
    rw [List.countP_append] at hcount
    omega
  · have hbehind : (window (fill memList 0 xs) xs.length n).countP (· ≠ 0) = 0 := by
      rw [List.countP_eq_zero]
      intro x hx
      obtain ⟨i, hi, -, rfl⟩ := mem_window.mp hx
      rw [fill_apply_of_not_mem (by omega), h]
      decide
    rw [← window_append (Nat.zero_le _) hle, List.countP_append, hxs, hbehind, Nat.add_zero]

/-- **Initialization**: the usable pages are taken in exactly when there are slots for them, the
end of every usable region is an address, and an `int` counts the entries. -/
theorem filled_iff {s : State} (hes : ∀ e ∈ es, e.Paged) (hzero : ∀ i, s.memList i = 0) :
    Filled es s ↔ (usablePages es).length ≤ memListSlots ∧
      (∀ e ∈ es, e.type = 0 → e.Ends) ∧ es.length < 2 ^ 31 := by
  have hcounter : 0 < 2 ^ 31 := by decide
  obtain ⟨hok, herror⟩ := fillEntries_eq s.memList hes (Nat.zero_le memListSlots) hcounter
  rw [Nat.zero_add, Nat.zero_add] at hok herror
  constructor
  · rintro ⟨s', hinit, hwindow, -⟩
    -- the loops ran to their end
    have hroom : (writtenPages es).length ≤ memListSlots ∧ es.length < 2 ^ 31 := by
      by_contra hnot
      cases hresult : fillEntries es 0 s.memList 0 with
      | error f => simp [kernelInitializeMemStack, hresult, Except.map] at hinit
      | ok r => exact herror hnot r hresult
    have hmem : s'.memList = fill s.memList 0 (writtenPages es) := by
      rw [kernelInitializeMemStack, hok hroom] at hinit
      obtain rfl := Except.ok.inj hinit
      rfl
    have hends : ∀ e ∈ es, e.type = 0 → e.Ends := by
      by_contra hnot
      simp only [not_forall] at hnot
      obtain ⟨e, he, htype, hends⟩ := hnot
      obtain ⟨-, hlt⟩ := countP_writtenPages hes
      have hlost := hlt ⟨e, he, htype, hends⟩
      -- the slots behind the pages written are zero
      have hcount := countP_window_fill_le (writtenPages es) (usablePages es).length hzero
      rw [← hmem, hwindow] at hcount
      omega
    rw [writtenPages_eq hends] at hroom
    exact ⟨hroom.1, hends, hroom.2⟩
  · rintro ⟨hlen, hends, hcount⟩
    rw [writtenPages_eq hends] at hok
    have hfill := hok ⟨hlen, hcount⟩
    refine ⟨{ s with memList := fill s.memList 0 (usablePages es) }, ?_, ?_, fun i hi => ?_⟩
    · rw [kernelInitializeMemStack, hfill]
      rfl
    · have hwindow := window_fill s.memList 0 (usablePages es)
      rwa [Nat.zero_add] at hwindow
    · show fill s.memList 0 (usablePages es) i = s.memList i
      apply fill_apply_of_not_mem
      omega

/-- An initialization that returns has filled the slots. -/
theorem kernelInitializeMemStack_eq {s₀ s : State} (hes : ∀ e ∈ es, e.Paged)
    (hends : ∀ e ∈ es, e.type = 0 → e.Ends)
    (hinit : kernelInitializeMemStack (some es) s₀ = .ok s) :
    s = { s₀ with memList := fill s₀.memList 0 (usablePages es) } := by
  have hcounter : 0 < 2 ^ 31 := by decide
  obtain ⟨hok, herror⟩ := fillEntries_eq s₀.memList hes (Nat.zero_le memListSlots) hcounter
  rw [Nat.zero_add, Nat.zero_add, writtenPages_eq hends] at hok herror
  by_cases hroom : (usablePages es).length ≤ memListSlots ∧ es.length < 2 ^ 31
  · rw [kernelInitializeMemStack, hok hroom] at hinit
    exact (Except.ok.inj hinit).symm
  · cases hresult : fillEntries es 0 s₀.memList 0 with
    | error f => simp [kernelInitializeMemStack, hresult, Except.map] at hinit
    | ok r => exact absurd hresult (herror hroom r)

/-- Zeroed memory and an empty `mem_list`. -/
def emptyPool : State := ⟨fun _ => 0, fun _ => 0, 0⟩

/-- Two usable regions around one that is not. -/
def smallMap : List MemmapEntry := [⟨0x1000, 0x2000, 0⟩, ⟨0x3000, 0x1000, 1⟩, ⟨0x5000, 0x1000, 0⟩]

theorem filled_smallMap : Filled smallMap emptyPool :=
  (filled_iff (by decide) fun _ => rfl).mpr (by decide)

/-- A usable region of one gigabyte and one page. -/
def gigabyteMap : List MemmapEntry := [⟨0x100000, 0x40001000, 0⟩]

/-- Its last page is written behind the array. -/
theorem gigabyte_overflows :
    (∀ e ∈ gigabyteMap, e.Paged) ∧
    kernelInitializeMemStack (some gigabyteMap) emptyPool = .error .overflow ∧
    ¬ Filled gigabyteMap emptyPool := by
  have hpaged : ∀ e ∈ gigabyteMap, e.Paged := by decide
  have hlen : (writtenPages gigabyteMap).length = 0x40001 := by
    rw [writtenPages_eq (by decide)]
    exact (List.length_append ..).trans (by simp [MemmapEntry.pages])
  have hentry : fillEntry ⟨0x100000, 0x40001000, 0⟩ emptyPool.memList 0 = .error .overflow := by
    rw [fillEntry_eq (hpaged _ (List.mem_cons_self ..)), if_neg]
    rw [gigabyteMap, writtenPages_cons, List.length_append] at hlen
    have hnil : (writtenPages []).length = 0 := rfl
    rw [hnil, Nat.add_zero] at hlen
    rw [hlen]
    decide
  have hinit : kernelInitializeMemStack (some gigabyteMap) emptyPool = .error .overflow := by
    simp only [kernelInitializeMemStack, gigabyteMap, fillEntries, hentry]
    rfl
  refine ⟨hpaged, hinit, ?_⟩
  rintro ⟨s', hfilled, -⟩
  rw [hinit] at hfilled
  exact absurd hfilled (by simp)

/-! ## Handing out and giving back -/

/-- The pool, and the frames that are handed out. -/
structure PoolRun where
  state : State
  allocated : List ℕ

inductive PoolCall where
  | allocate
  | deallocate (frame : ℕ)

def PoolRun.step (r : PoolRun) : PoolCall → PoolRun
  | .allocate =>
    ⟨(kernelAllocateFrame r.state).2, (kernelAllocateFrame r.state).1 :: r.allocated⟩
  | .deallocate frame =>
    ⟨(kernelDeallocateFrame r.state frame).2, r.allocated.erase frame⟩

/-- Never more than `n` frames are outstanding, and only these are given back. -/
def PoolRun.Fair (n : ℕ) (r : PoolRun) : PoolCall → Prop
  | .allocate => r.allocated.length < n
  | .deallocate frame => frame ∈ r.allocated

instance (n : ℕ) (r : PoolRun) : (c : PoolCall) → Decidable (r.Fair n c)
  | .allocate => inferInstanceAs (Decidable (_ < _))
  | .deallocate _ => inferInstanceAs (Decidable (_ ∈ _))

/-- The frames handed out and those left in the pool are the usable ones, each of them once. -/
def PoolRun.Conserved (entries : List MemmapEntry) (r : PoolRun) : Prop :=
  (r.allocated ++ window r.state.memList r.state.stackPosition (usablePages entries).length).Perm
    (usablePages entries)

/-- A frame that is handed out is not outstanding, and one that is given back is taken. -/
def PoolRun.Sound (r : PoolRun) : PoolCall → Prop
  | .allocate => (kernelAllocateFrame r.state).1 ∉ r.allocated
  | .deallocate frame => (kernelDeallocateFrame r.state frame).1 = 0

/-- The stack position counts the frames that are outstanding. -/
structure PoolRun.Inv (entries : List MemmapEntry) (r : PoolRun) : Prop where
  position : r.state.stackPosition = r.allocated.length
  conserved : r.Conserved entries

variable {r : PoolRun} {c : PoolCall}

theorem mod_of_mem_usablePages (hes : ∀ e ∈ es, e.Paged) {f : ℕ} (hf : f ∈ usablePages es) :
    f % 0x1000 = 0 := by
  obtain ⟨e, he, hf⟩ := List.mem_flatMap.mp hf
  have hbase := (hes e (List.mem_filter.mp he).1).base_mod
  obtain ⟨j, -, rfl⟩ := List.mem_map.mp hf
  omega

/-- A page address has no offset bits. -/
theorem land_offset {f : ℕ} (hf : f % 0x1000 = 0) : f &&& 0xFFF = 0 :=
  (Nat.and_two_pow_sub_one_eq_mod f 12).trans hf

theorem PoolRun.Inv.deallocate (h : r.Inv es) (hes : ∀ e ∈ es, e.Paged) {f : ℕ}
    (hf : f ∈ r.allocated) :
    kernelDeallocateFrame r.state f = (0, { r.state with
      memList := Function.update r.state.memList (r.state.stackPosition - 1) f
      stackPosition := r.state.stackPosition - 1 }) := by
  have husable := h.conserved.subset (List.mem_append_left _ hf)
  have hpos : r.state.stackPosition ≠ 0 := by
    rw [h.position]
    exact (List.length_pos_of_mem hf).ne'
  rw [kernelDeallocateFrame, if_neg, if_neg hpos]
  exact not_not.mpr (land_offset (mod_of_mem_usablePages hes husable))

/-- Handing out moves the top of the stack to the frames outstanding. -/
theorem allocate_perm {s : State} {n : ℕ} (xs : List ℕ) (h : s.stackPosition < n) :
    ((kernelAllocateFrame s).1 :: xs ++ window (kernelAllocateFrame s).2.memList
      (kernelAllocateFrame s).2.stackPosition n).Perm
      (xs ++ window s.memList s.stackPosition n) := by
  rw [window_pop h]
  exact List.perm_middle.symm

/-- Giving back moves a frame outstanding to the top of the stack. -/
theorem deallocate_perm {s : State} {n f : ℕ} {xs : List ℕ} (hpos : s.stackPosition ≠ 0)
    (h : s.stackPosition - 1 < n) (hf : f ∈ xs) :
    (xs.erase f ++ window (Function.update s.memList (s.stackPosition - 1) f)
      (s.stackPosition - 1) n).Perm (xs ++ window s.memList s.stackPosition n) := by
  have hnext : s.stackPosition - 1 + 1 = s.stackPosition := by omega
  rw [window_push h, hnext]
  apply List.perm_middle.trans
  rw [← List.cons_append]
  exact (List.perm_cons_erase hf).symm.append_right _

/-- **Step lemma.** -/
theorem PoolRun.Inv.step (h : r.Inv es) (hes : ∀ e ∈ es, e.Paged)
    (hc : r.Fair (usablePages es).length c) : (r.step c).Inv es := by
  cases c with
  | allocate =>
    have hlt : r.state.stackPosition < (usablePages es).length := h.position.trans_lt hc
    constructor
    · show r.state.stackPosition + 1 = (_ :: r.allocated).length
      rw [h.position, List.length_cons]
    · exact (allocate_perm r.allocated hlt).trans h.conserved
  | deallocate f =>
    have hlen := List.length_pos_of_mem hc
    have hdealloc := h.deallocate hes hc
    have hbound : r.allocated.length ≤ (usablePages es).length := by
      rw [← h.conserved.length_eq, List.length_append]
      exact Nat.le_add_right _ _
    have hpos := h.position
    constructor
    · show (kernelDeallocateFrame r.state f).2.stackPosition = (r.allocated.erase f).length
      rw [hdealloc, List.length_erase_of_mem hc, ← h.position]
    · show (r.allocated.erase f ++ window (kernelDeallocateFrame r.state f).2.memList
        (kernelDeallocateFrame r.state f).2.stackPosition _).Perm _
      rw [hdealloc]
      exact (deallocate_perm (by omega) (by omega) hc).trans h.conserved

/-- **Conservation**: after the initialization, however frames are handed out and given back,
the frames outstanding and the slots from the stack position on are the usable frames, each of
them once, and every frame that is given back is taken. -/
theorem frames_conserved {s₀ s : State} (hes : ∀ e ∈ es, e.Paged)
    (hends : ∀ e ∈ es, e.type = 0 → e.Ends) (hdistinct : (usablePages es).Nodup)
    (hboot : s₀.stackPosition = 0) (hinit : kernelInitializeMemStack (some es) s₀ = .ok s)
    {calls : List PoolCall}
    (hrun : Along PoolRun.step (PoolRun.Fair (usablePages es).length) ⟨s, []⟩ calls) :
    Everywhere PoolRun.step (PoolRun.Conserved es) ⟨s, []⟩ calls ∧
      Along PoolRun.step PoolRun.Sound ⟨s, []⟩ calls := by
  have hs := kernelInitializeMemStack_eq hes hends hinit
  have hstart : PoolRun.Inv es ⟨s, []⟩ := by
    subst hs
    refine ⟨hboot, ?_⟩
    have hwindow := window_fill s₀.memList 0 (usablePages es)
    rw [Nat.zero_add] at hwindow
    show List.Perm ([] ++ window _ s₀.stackPosition _) _
    rw [hboot, List.nil_append, hwindow]
  have hstep : ∀ r c, PoolRun.Inv es r → r.Fair (usablePages es).length c →
      (r.step c).Inv es := fun r c h hc => h.step hes hc
  constructor
  · exact hrun.everywhere hstart hstep fun r h => h.conserved
  · apply hrun.imp_of_invariant hstart hstep
    intro r c h hc
    cases c with
    | allocate =>
      have hlt : r.state.stackPosition < (usablePages es).length := h.position.trans_lt hc
      have hnodup := h.conserved.nodup_iff.mpr hdistinct
      rw [window_pop hlt] at hnodup
      have hdisjoint := (List.nodup_append.mp hnodup).2.2
      exact fun hmem => hdisjoint _ hmem _ (List.mem_cons_self ..) rfl
    | deallocate f =>
      show (kernelDeallocateFrame r.state f).1 = 0
      rw [h.deallocate hes hc]

/-- All three frames of the small map are handed out, and two of them again. -/
theorem frames_conserved_smallMap :
    ∃ s, kernelInitializeMemStack (some smallMap) emptyPool = .ok s ∧
      Everywhere PoolRun.step (PoolRun.Conserved smallMap) ⟨s, []⟩
        [.allocate, .allocate, .allocate, .deallocate 0x1000, .deallocate 0x5000, .allocate,
          .allocate] := by
  refine ⟨_, rfl, (frames_conserved (by decide) (by decide) (by decide) rfl rfl ?_).1⟩
  decide

end Cutesugar.Kernel.Mmu
