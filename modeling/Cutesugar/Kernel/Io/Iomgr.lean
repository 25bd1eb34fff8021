import Cutesugar.Kernel.Misc.MallocFresh
import Cutesugar.Kernel.Object.PathCompleteness

/-!
# Devices (`kernel/io/iomgr.c`)

A device is a block of the heap that is entered into the directory `./Devices`. Its name is copied
without the NUL, so what the name field holds depends on what the block held before. Objects and
header lists are therefore read from the bytes of the heap here, and the functions that build them
(`kernel/object/directory.c`, `kernel/object/object.c`) are given on the bytes.

- `ObjectHeader`: `name` at offset 0, `type` at offset 72.
- `Directory`: `header_list` at offset 88, 96 bytes.
- `BlockDevice`, `CharDevice`: `functions` at offset 104, 112 bytes.
- `ObjectHeaderList`: `item` at offset 0, `next` at offset 8.
-/

namespace Cutesugar.Kernel.Io

open Lib Lib.Memory Libc Malloc

/-! ## Objects in the heap -/

def readObject (m : Memory) (p : ℕ) : Directory where
  header := ⟨⟨m.bytes p 64, length_bytes m p 64⟩, m.load64 (p + 72)⟩
  headerList := m.load64 (p + 88)

def readList (m : Memory) (t : ℕ) : ObjectHeaderList := ⟨m.load64 t, m.load64 (t + 8)⟩

/-- The kernel with the objects and the header lists that a memory holds. -/
abbrev onHeap (kernel : State) (m : Memory) : State :=
  { kernel with objects := readObject m, lists := readList m }

/-- The heap, the blocks that other clients than the object manager have been given, and the rest
of the kernel. -/
structure IoState where
  store : HeapRun
  clients : List (ℕ × ℕ)
  kernel : State

def IoState.view (s : IoState) : State := onHeap s.kernel s.store.heap.mem

/-! ## Functions -/

abbrev setMem (s : HeapRun) (m : Memory) : HeapRun := { s with heap := { s.heap with mem := m } }

/-- The store after `malloc` has returned. -/
abbrev grant (s : HeapRun) (size : ℕ) (r : ℕ × Heap) : HeapRun :=
  { s with heap := r.2, live := (r.1, size) :: s.live }

/-- `malloc`, with the list of the blocks handed out. -/
def allocate (s : HeapRun) (size : ℕ) : Except Fault (ℕ × HeapRun) :=
  match Malloc.malloc s.heap size with
  | none => .error .stuck
  | some r => .ok (r.1, grant s size r)

/-- A new entry: its address goes to the given field, and its item is the object. `next` is what
the block held. -/
def attach (s : HeapRun) (field object : ℕ) : Except Fault HeapRun := do
  let (node, s) ← allocate s 16
  .ok (setMem s ((s.heap.mem.store64 field node).store64 node object))

/-- `DirectoryAddChild`. -/
def directoryAddChild (fuel : ℕ) (s : HeapRun) (directory object : ℕ) : Except Fault HeapRun :=
  let next := fun t => s.heap.mem.load64 (t + 8)
  if directory = 0 then .error .null
  else if s.heap.mem.load64 (directory + 88) = 0 then attach s (directory + 88) object
  else do
    let last ← (walk next (fun t => next t == 0) fuel (s.heap.mem.load64 (directory + 88))).elim
      (.error .stuck) .ok
    attach s (last + 8) object

/-- `CreateDirectory`, with the 32 bytes at `name`. -/
def createDirectory (fuel : ℕ) (s : HeapRun) (root : ℕ) (name : List.Vector UInt8 32) :
    Except Fault HeapRun := do
  let (dir, s) ← allocate s 96
  let m := s.heap.mem.store64 (dir + 72) 1
  let m := m.writeBytes dir name.toList
  directoryAddChild fuel (setMem s m) root dir

/-- The string `Devices`. -/
def devicesName : List UInt8 := [68, 101, 118, 105, 99, 101, 115]

/-- The 32 bytes that `CreateDirectory` copies: the literal and what stands behind it. -/
def devicesLiteral (behind : List.Vector UInt8 24) : List.Vector UInt8 32 :=
  ⟨devicesName ++ 0 :: behind.toList, by simp [devicesName]⟩

/-- `InitializeObjectManager`. -/
def initializeObjectManager (fuel : ℕ) (s : IoState) (behind : List.Vector UInt8 24) :
    Except Fault IoState := do
  let (root, store) ← allocate s.store 96
  let m := store.heap.mem.store64 (root + 72) 1
  let m := m.writeBytes root [46, 0]
  let store ← createDirectory fuel (setMem store m) root (devicesLiteral behind)
  .ok { s with store := store, kernel := { s.kernel with rootObject := root } }

/-- What both functions that create a device do, for the type they write. -/
def ioCreateDevice (type fuel depth : ℕ) (s : IoState) (functions : ℕ) (name : List UInt8) :
    Except Fault (ℕ × IoState) := do
  let (newDevice, store) ← allocate s.store 112
  let m := store.heap.mem.store64 (newDevice + 104) functions
  let len ← strlen name
  -- the NUL is not copied
  let m := m.writeBytes newDevice (name.take len)
  let m := m.store64 (newDevice + 72) type
  let root ← (objGetRootObject fuel (onHeap s.kernel m)).elim (.error .stuck) .ok
  let devices ← resolveObjectName fuel (onHeap s.kernel m) depth root
    (some ([46, 47] ++ devicesName ++ [0]))
  let store ← directoryAddChild fuel (setMem store m) devices newDevice
  .ok (newDevice, { s with store := store })

/-- `IoCreateBlockDevice`. -/
def ioCreateBlockDevice : ℕ → ℕ → IoState → ℕ → List UInt8 → Except Fault (ℕ × IoState) :=
  ioCreateDevice 3

/-- `IoCreateCharDevice`. -/
def ioCreateCharDevice : ℕ → ℕ → IoState → ℕ → List UInt8 → Except Fault (ℕ × IoState) :=
  ioCreateDevice 2

/-! ## What the readers depend on -/

/-- The bytes that are compared with a name. -/
theorem childName_onHeap (kernel : State) (m : Memory) (o : ℕ) :
    childName (onHeap kernel m) o = cString (m.bytes o 32) := by
  change cString ((m.bytes o 64).take 32) = _
  rw [take_bytes (by decide)]

/-! ## Blocks of the store -/

section Store

variable {S : PageSupply} {s s' : HeapRun} {p q n k size d o fuel : ℕ} {entries : List ℕ}

/-- A store that nothing was given back to. -/
def FreshStore (S : PageSupply) (s : HeapRun) : Prop :=
  ∃ role headers, Fresh S role headers s.heap s.live

/-- Two memories agree on an allocation. -/
def SameAt (m m' : Memory) (x : ℕ × ℕ) : Prop := ∀ a, x.1 ≤ a → a < x.1 + x.2 → m' a = m a

theorem SameAt.load64 {m m' : Memory} {x : ℕ × ℕ} (h : SameAt m m' x) {i : ℕ}
    (hi : i + 8 ≤ x.2) : m'.load64 (x.1 + i) = m.load64 (x.1 + i) :=
  load64_congr fun a ha ha' => h a (by omega) (by omega)

theorem SameAt.trans {m m' m'' : Memory} {x : ℕ × ℕ} (h : SameAt m m' x) (h' : SameAt m' m'' x) :
    SameAt m m'' x :=
  fun a ha ha' => (h' a ha ha').trans (h a ha ha')

/-- A request fits its block. -/
theorem size_lt_block (h : size < 2048) : sizeClass size ≤ 8 ∧ size < 8 * 2 ^ sizeClass size :=
  ⟨sizeClass_le_eight h, size_lt_of_sizeClass (h.trans (by decide))⟩

theorem FreshStore.apart (h : FreshStore S s) (hp : (p, n) ∈ s.live) (hq : (q, k) ∈ s.live)
    (hn : n < 2048) (hk : k < 2048) (hne : p ≠ q) : Apart p n q k := by
  obtain ⟨role, headers, hf⟩ := h
  obtain ⟨hn8, hnsize⟩ := size_lt_block hn
  obtain ⟨hk8, hksize⟩ := size_lt_block hk
  have happ := hf.apart_live hp hq hn8 hk8 hne
  unfold Apart at happ ⊢
  dsimp only at happ
  omega

/-- A live pointer belongs to one request. -/
theorem FreshStore.unique (h : FreshStore S s) (hp : (p, n) ∈ s.live) (hq : (p, k) ∈ s.live) :
    n = k := by
  obtain ⟨role, headers, hf⟩ := h
  exact (Prod.mk.inj (List.inj_on_of_nodup_map hf.distinct hp hq rfl)).2

theorem FreshStore.ne_zero (h : FreshStore S s) (hp : (p, n) ∈ s.live) : p ≠ 0 := by
  obtain ⟨role, headers, hf⟩ := h
  rintro rfl
  exact hf.blocks _ hp (Nat.zero_mod _)

theorem FreshStore.lt (h : FreshStore S s) (hp : (p, n) ∈ s.live) : p < 2 ^ 64 := by
  obtain ⟨role, headers, hf⟩ := h
  obtain ⟨i, hi, -, hhi⟩ := hf.on_page hp
  have := hf.page_below hi
  dsimp only at hhi
  omega

/-- Writes inside one live block. -/
theorem FreshStore.setMem (h : FreshStore S s) {m : Memory} (hp : (p, n) ∈ s.live) (hn : n < 2048)
    (hm : ∀ a, ¬ (p ≤ a ∧ a < p + n) → m a = s.heap.mem a) : FreshStore S (setMem s m) := by
  obtain ⟨role, headers, hf⟩ := h
  obtain ⟨hn8, hnsize⟩ := size_lt_block hn
  refine ⟨role, headers, hf.writeBlock hp hn8 fun a ha => hm a ?_⟩
  dsimp only at ha
  omega

/-- Allocations lie behind the headers of the pages. -/
theorem FreshStore.on_page (h : FreshStore S s) {x : ℕ × ℕ} (hx : x ∈ s.live) (hn : x.2 < 2048)
    {a : ℕ} (ha : x.1 ≤ a) (ha' : a < x.1 + x.2) :
    ∃ i < s.heap.expanded, S.page i + 24 ≤ a ∧ a < S.page i + 0x1000 := by
  obtain ⟨role, headers, hf⟩ := h
  obtain ⟨hn8, hnsize⟩ := size_lt_block hn
  obtain ⟨i, hi, -, hlo, hhi⟩ := hf.inside_page ⟨x, hx, hn8, ha, by omega⟩
  exact ⟨i, hi, hlo, hhi⟩

theorem allocate_of_malloc {r : ℕ × Heap} (h : Malloc.malloc s.heap size = some r) :
    allocate s size = .ok (r.1, grant s size r) := by
  rw [allocate, h]

/-- **`malloc` of a small block.** -/
theorem FreshStore.allocate_small (h : FreshStore S s) (hsize : size < 2048) :
    ∃ p s', allocate s size = .ok (p, s') ∧ s'.live = (p, size) :: s.live ∧
      s'.heap.expanded = s.heap.expanded + pagesNeeded s.heap size ∧
      (s'.heap.expanded ≤ S.count → FreshStore S s' ∧
        Granted S s.heap s'.heap (sizeClass size) p (freeLink s.heap (sizeClass size))) := by
  obtain ⟨role, headers, hf⟩ := h
  obtain ⟨hk, -⟩ := size_lt_block hsize
  have hcall : Malloc.malloc s.heap size = some (mallocSmall s.heap (sizeClass size)) :=
    if_neg (by omega)
  have hcount := pagesNeeded_small (h := s.heap) hk
  have hspec := hf.mallocSmall (hsize.trans (by decide)) rfl hk
  generalize mallocSmall s.heap (sizeClass size) = r at hcall hcount hspec
  refine ⟨r.1, grant s size r, allocate_of_malloc hcall, rfl, hcount, fun hsupply => ?_⟩
  obtain ⟨⟨role', hf'⟩, hgrant⟩ := hspec hsupply
  exact ⟨⟨role', headers, hf'⟩, hgrant⟩

/-- What was allocated before stays. -/
theorem FreshStore.granted_same (h : FreshStore S s) {h' : Heap} {link : ℕ}
    (hgrant : Granted S s.heap h' k p link) {x : ℕ × ℕ} (hx : x ∈ s.live) (hn : x.2 < 2048) :
    SameAt s.heap.mem h'.mem x := by
  intro a ha ha'
  obtain ⟨i, hi, hlo, hhi⟩ := h.on_page hx hn ha ha'
  exact hgrant.frame i hi a hlo hhi

/-- **`malloc` of any size.** -/
theorem FreshStore.allocate (h : FreshStore S s) (hsize : size < 2 ^ 64)
    (hsupply : s.heap.expanded + pagesNeeded s.heap size ≤ S.count) :
    ∃ p s', allocate s size = .ok (p, s') ∧ s'.live = (p, size) :: s.live ∧ FreshStore S s' ∧
      ∀ x ∈ s.live, x.2 < 2048 → SameAt s.heap.mem s'.heap.mem x := by
  by_cases hc : 9 ≤ sizeClass size
  · obtain ⟨role, headers, hf⟩ := id h
    obtain ⟨role', p, h', hbig, hf', hframe⟩ := hf.mallocBig hsize hc hsupply
    have hcall : Malloc.malloc s.heap size = some (p, h') := (if_pos hc).trans hbig
    refine ⟨p, grant s size (p, h'), allocate_of_malloc hcall, rfl, ⟨role', _, hf'⟩,
      fun x hx hn a ha ha' => ?_⟩
    obtain ⟨hn8, hnsize⟩ := size_lt_block hn
    obtain ⟨i, hi, hr, hlo, hhi⟩ := hf.inside_page ⟨x, hx, hn8, ha, by omega⟩
    exact hframe i hi hr a (by omega) hhi
  · obtain ⟨role, headers, hf⟩ := id h
    have hk : sizeClass size ≤ 8 := by omega
    have hcall : Malloc.malloc s.heap size = some (mallocSmall s.heap (sizeClass size)) := if_neg hc
    rw [← pagesNeeded_small hk] at hsupply
    obtain ⟨⟨role', hf'⟩, hgrant⟩ := hf.mallocSmall hsize rfl hk hsupply
    generalize mallocSmall s.heap (sizeClass size) = r at hcall hf' hgrant
    exact ⟨r.1, grant s size r, allocate_of_malloc hcall, rfl, ⟨role', headers, hf'⟩,
      fun x hx hn => h.granted_same hgrant hx hn⟩

/-! ## `DirectoryAddChild` -/

/-- The link of a header list in the heap. -/
abbrev nextEntry (m : Memory) (t : ℕ) : ℕ := m.load64 (t + 8)

/-- A header list of the heap: its entries are blocks. -/
structure HeaderList (s : HeapRun) (d : ℕ) (entries : List ℕ) : Prop where
  chain : Chain (nextEntry s.heap.mem) (s.heap.mem.load64 (d + 88)) entries 0
  live : ∀ t ∈ entries, (t, 16) ∈ s.live
  nodup : entries.Nodup

/-- The field that takes the address of the next entry. -/
def linkField (d : ℕ) (entries : List ℕ) : ℕ := entries.getLast?.elim (d + 88) (· + 8)

/-- The loop ends at the last entry. -/
theorem HeaderList.last (h : FreshStore S s) (hl : HeaderList s d entries) (hne : entries ≠ []) :
    s.heap.mem.load64 (d + 88) ≠ 0 ∧ ∃ init l, entries = init ++ [l] ∧
      Chain (nextEntry s.heap.mem) (s.heap.mem.load64 (d + 88)) init l ∧
      nextEntry s.heap.mem l = 0 ∧ ∀ t ∈ init, nextEntry s.heap.mem t ≠ 0 := by
  have hnonnull : ∀ t ∈ entries, t ≠ 0 := fun t ht => h.ne_zero (hl.live t ht)
  have hchain := hl.chain
  have hnodup := hl.nodup
  rcases List.eq_nil_or_concat' entries with rfl | ⟨init, l, rfl⟩
  · exact absurd rfl hne
  obtain ⟨hinit, hend, hgo⟩ := hchain.before_last hnodup hnonnull
  refine ⟨?_, init, l, rfl, hinit, hend, fun t ht => (hgo t ht).1⟩
  cases init with
  | nil =>
    obtain rfl := hinit
    exact hnonnull _ (List.mem_cons_self ..)
  | cons t init =>
    obtain ⟨rfl, -⟩ := hinit
    exact hnonnull _ (List.mem_cons_self ..)

/-- With enough rounds the entry goes behind the last one, and with any number of rounds that
suffices. -/
theorem directoryAddChild_eq (h : FreshStore S s) (hd : d ≠ 0) (hl : HeaderList s d entries) :
    (entries.length ≤ fuel → directoryAddChild fuel s d o = attach s (linkField d entries) o) ∧
    ∀ s', directoryAddChild fuel s d o = .ok s' → attach s (linkField d entries) o = .ok s' := by
  rw [directoryAddChild]
  dsimp only
  rw [if_neg hd]
  by_cases hne : entries = []
  · subst hne
    -- an empty list: the directory itself gets the address
    have hhead : s.heap.mem.load64 (d + 88) = 0 := hl.chain
    rw [if_pos hhead]
    exact ⟨fun _ => rfl, fun s' hs' => hs'⟩
  · obtain ⟨hhead, init, l, rfl, hinit, hend, hgo⟩ := hl.last h hne
    have hfield : linkField d (init ++ [l]) = l + 8 := by simp [linkField]
    have hstop : (nextEntry s.heap.mem l == 0) = true := by rw [hend]; rfl
    have hgo' : ∀ t ∈ init, (nextEntry s.heap.mem t == 0) = false :=
      fun t ht => beq_eq_false_iff_ne.mpr (hgo t ht)
    rw [if_neg hhead, hfield]
    constructor
    · intro hfuel
      -- the walk over the list stops at the last entry
      have hwalk : walk (nextEntry s.heap.mem) (fun t => nextEntry s.heap.mem t == 0) fuel
          (s.heap.mem.load64 (d + 88)) = some l := by
        refine walk_of_chain hinit ?_ ?_ ?_
        · exact hstop
        · exact hgo'
        · rw [List.length_append] at hfuel
          exact (Nat.le_add_right ..).trans hfuel
      rw [hwalk]
      simp only [Option.elim, bind, Except.bind]
    · intro s' hs'
      obtain ⟨last, hlast, hs'⟩ := bind_eq_ok.mp hs'
      cases hwalk : walk (nextEntry s.heap.mem) (fun t => nextEntry s.heap.mem t == 0) fuel
          (s.heap.mem.load64 (d + 88)) with
      | none =>
        rw [hwalk] at hlast
        exact absurd hlast (by simp)
      | some last' =>
        rw [hwalk] at hlast
        -- a walk that returned has stopped at the same entry
        have heq : last' = l := by
          refine walk_eq_of_chain hwalk hinit ?_ ?_
          · exact hstop
          · exact hgo'
        subst heq
        obtain rfl := Except.ok.inj hlast
        exact hs'

/-- The pointer just handed out is a new one. -/
theorem FreshStore.new_ne (h : FreshStore S s') (hlive : s'.live = (p, n) :: s.live) {x : ℕ × ℕ}
    (hx : x ∈ s.live) : x.1 ≠ p := by
  obtain ⟨role, headers, hf⟩ := h
  have hdistinct := hf.distinct
  rw [hlive, List.map_cons] at hdistinct
  intro heq
  have hmem : x.1 ∈ s.live.map Prod.fst := List.mem_map_of_mem hx
  rw [heq] at hmem
  exact (List.nodup_cons.mp hdistinct).1 hmem

/-- The field that takes the new address is in the directory or in an entry. -/
theorem HeaderList.linkField (hl : HeaderList s d entries) (hd : (d, 96) ∈ s.live) :
    ∃ y ∈ s.live, y.2 < 2048 ∧ y.1 ≤ linkField d entries ∧ linkField d entries + 8 ≤ y.1 + y.2 ∧
      (linkField d entries = d + 88 ∨ ∃ t ∈ entries, linkField d entries = t + 8) := by
  rcases List.eq_nil_or_concat' entries with rfl | ⟨init, l, rfl⟩
  · exact ⟨(d, 96), hd, show 96 < 2048 by decide, Nat.le_add_right .., le_rfl, .inl rfl⟩
  · have hmem : l ∈ init ++ [l] := List.mem_append_right _ (List.mem_singleton_self l)
    have hfield : Io.linkField d (init ++ [l]) = l + 8 := by simp [Io.linkField]
    rw [hfield]
    exact ⟨(l, 16), hl.live l hmem, show 16 < 2048 by decide, Nat.le_add_right .., le_rfl, .inr ⟨l, hmem, rfl⟩⟩

/-- What was allocated stays, apart from the links of a header list. -/
def OnlyLinks (s s' : HeapRun) (d : ℕ) (entries : List ℕ) : Prop :=
  ∀ x ∈ s.live, x.2 < 2048 → ∀ a, x.1 ≤ a → a < x.1 + x.2 → ¬ (d + 88 ≤ a ∧ a < d + 96) →
    (∀ t ∈ entries, ¬ (t + 8 ≤ a ∧ a < t + 16)) → s'.heap.mem a = s.heap.mem a

/-- **A new entry**: the header list has it at its end, and nothing else of what was allocated
changes. -/
theorem attach_spec (h : FreshStore S s) (hd : (d, 96) ∈ s.live) (hl : HeaderList s d entries)
    (ho : o < 2 ^ 64) (hattach : attach s (linkField d entries) o = .ok s')
    (hsupply : s'.heap.expanded ≤ S.count) :
    ∃ node, s'.live = (node, 16) :: s.live ∧ FreshStore S s' ∧ HeaderList s' d (entries ++ [node]) ∧
      s'.heap.mem.load64 node = o ∧ OnlyLinks s s' d entries := by
  obtain ⟨node, s₁, hcall, hlive, -, hspec⟩ := h.allocate_small (show 16 < 2048 by decide)
  rw [attach, hcall] at hattach
  obtain rfl := Except.ok.inj hattach
  obtain ⟨hfresh, hgrant⟩ := hspec hsupply
  have hsame : ∀ x ∈ s.live, x.2 < 2048 → SameAt s.heap.mem s₁.heap.mem x :=
    fun x hx hn => h.granted_same hgrant hx hn
  have hzero : ∀ a, node + 8 ≤ a → a < node + 32 → s₁.heap.mem a = 0 := hgrant.zero
  have hsub : ∀ x ∈ s.live, x ∈ s₁.live := by
    rw [hlive]
    exact fun x hx => List.mem_cons_of_mem _ hx
  have hnode : (node, 16) ∈ s₁.live := hlive ▸ List.mem_cons_self ..
  have happ : ∀ x ∈ s.live, x.2 < 2048 → Apart x.1 x.2 node 16 := fun x hx hn =>
    hfresh.apart (hsub x hx) hnode hn (by decide) (hfresh.new_ne hlive hx)
  obtain ⟨y, hy, hyn, hylo, hyhi, hwhere⟩ := hl.linkField hd
  have hyapp := happ y hy hyn
  unfold Apart at hyapp
  generalize hfield : linkField d entries = field at *
  have hlt := hfresh.lt hnode
  -- the two stores: the field, then the item
  have hmem : ∀ a, ¬ (field ≤ a ∧ a < field + 8) → ¬ (node ≤ a ∧ a < node + 8) →
      ((s₁.heap.mem.store64 field node).store64 node o) a = s₁.heap.mem a := by
    intro a ha ha'
    rw [store64_apply_of_not_mem ha', store64_apply_of_not_mem ha]
  have hlink : ((s₁.heap.mem.store64 field node).store64 node o).load64 field = node := by
    rw [load64_store64_of_apart (by simp only [Apart]; omega), load64_store64_same_of_lt hlt]
  have hitem : ((s₁.heap.mem.store64 field node).store64 node o).load64 node = o :=
    load64_store64_same_of_lt ho
  have hfresh' : FreshStore S
      (setMem s₁ ((s₁.heap.mem.store64 field node).store64 node o)) := by
    have hfirst : FreshStore S (setMem s₁ (s₁.heap.mem.store64 field node)) :=
      hfresh.setMem (hsub y hy) hyn fun a ha => store64_apply_of_not_mem (by omega)
    exact hfirst.setMem hnode (by decide) fun a ha => store64_apply_of_not_mem (by omega)
  dsimp only [setMem]
  generalize (s₁.heap.mem.store64 field node).store64 node o = m at *
  have hkeep : ∀ x ∈ s.live, x.2 < 2048 → ∀ a, x.1 ≤ a → a < x.1 + x.2 →
      ¬ (field ≤ a ∧ a < field + 8) → m a = s.heap.mem a := by
    intro x hx hn a ha ha' hnot
    have := happ x hx hn
    unfold Apart at this
    rw [hmem a hnot (by omega)]
    exact hsame x hx hn a ha ha'
  have hend : m.load64 (node + 8) = 0 :=
    load_eq_zero fun a ha ha' => (hmem a (by omega) (by omega)).trans (hzero a (by omega) (by omega))
  have hnotin : node ∉ entries := fun hin => hfresh.new_ne hlive (hl.live node hin) rfl
  refine ⟨node, hlive, hfresh', { chain := ?_, live := ?_, nodup := ?_ }, hitem, ?_⟩
  · rcases List.eq_nil_or_concat' entries with rfl | ⟨init, l, rfl⟩
    · -- the directory was empty
      obtain rfl : field = d + 88 := hfield.symm
      exact ⟨hlink, hend⟩
    · have hl8 : field = l + 8 := by simpa [linkField] using hfield.symm
      subst hl8
      have hlmem : l ∈ init ++ [l] := List.mem_append_right _ (List.mem_singleton_self l)
      have hlinit : l ∉ init := fun hin =>
        (List.nodup_append.mp hl.nodup).2.2 l hin l (List.mem_singleton_self l) rfl
      have hhead : m.load64 (d + 88) = s.heap.mem.load64 (d + 88) := by
        have hne : d ≠ l := by
          rintro rfl
          exact absurd (h.unique hd (hl.live _ hlmem)) (by decide)
        have := h.apart hd (hl.live l hlmem) (by decide) (by decide) hne
        unfold Apart at this
        exact load64_congr fun a ha ha' => hkeep _ hd (show 96 < 2048 by decide) a
          (by dsimp only; omega) (by dsimp only; omega) (by omega)
      have hother : ∀ t ∈ init, nextEntry m t = nextEntry s.heap.mem t := by
        intro t ht
        have htlive := hl.live t (List.mem_append_left _ ht)
        have hne : t ≠ l := by
          rintro rfl
          exact hlinit ht
        have := h.apart htlive (hl.live l hlmem) (by decide) (by decide) hne
        unfold Apart at this
        exact load64_congr fun a ha ha' => hkeep _ htlive (show 16 < 2048 by decide) a
          (by dsimp only; omega) (by dsimp only; omega) (by omega)
      have hchain : Chain (nextEntry m) _ _ (nextEntry m node) :=
        hl.chain.append_node hlinit hlink hother
      rw [hhead]
      rwa [nextEntry, hend] at hchain
  · intro t ht
    dsimp only
    rcases List.mem_append.mp ht with ht | ht
    · exact hsub _ (hl.live t ht)
    · rw [List.mem_singleton.mp ht]
      exact hnode
  · refine List.nodup_append.mpr ⟨hl.nodup, List.nodup_singleton _, fun t ht t' ht' => ?_⟩
    rw [List.mem_singleton.mp ht']
    rintro rfl
    exact hnotin ht
  · intro x hx hn a ha ha' hdir hentries
    apply hkeep x hx hn a ha ha'
    rcases hwhere with rfl | ⟨t, ht, rfl⟩
    · omega
    · have := hentries t ht
      omega

/-- The directory and its entries do not meet. -/
theorem HeaderList.apart (hl : HeaderList s d entries) (h : FreshStore S s) (hd : (d, 96) ∈ s.live)
    {t : ℕ} (ht : t ∈ entries) : Apart d 96 t 16 := by
  refine h.apart hd (hl.live t ht) (by decide) (by decide) ?_
  rintro rfl
  exact absurd (h.unique hd (hl.live _ ht)) (by decide)

/-- Other blocks stay. -/
theorem OnlyLinks.same (hlinks : OnlyLinks s s' d entries) (h : FreshStore S s)
    (hd : (d, 96) ∈ s.live) (hl : HeaderList s d entries) (hp : (p, n) ∈ s.live) (hn : n < 2048)
    (hne : p ≠ d) (hnot : p ∉ entries) : SameAt s.heap.mem s'.heap.mem (p, n) := by
  intro a ha ha'
  dsimp only at ha ha'
  refine hlinks (p, n) hp hn a ha ha' ?_ fun t ht => ?_
  · have := h.apart hp hd hn (by decide) hne
    unfold Apart at this
    omega
  · have hpt : p ≠ t := by
      rintro rfl
      exact hnot ht
    have := h.apart hp (hl.live t ht) hn (by decide) hpt
    unfold Apart at this
    omega

/-- The items of the entries stay. -/
theorem OnlyLinks.item (hlinks : OnlyLinks s s' d entries) (h : FreshStore S s)
    (hd : (d, 96) ∈ s.live) (hl : HeaderList s d entries) {t : ℕ} (ht : t ∈ entries) :
    s'.heap.mem.load64 t = s.heap.mem.load64 t := by
  have hdir := hl.apart h hd ht
  unfold Apart at hdir
  refine load64_congr fun a ha ha' => ?_
  refine hlinks (t, 16) (hl.live t ht) (show 16 < 2048 by decide) a ha (by dsimp only; omega)
    (by omega) fun t' ht' => ?_
  rcases eq_or_ne t' t with rfl | hne
  · omega
  · have := h.apart (hl.live t' ht') (hl.live t ht) (by decide) (by decide) hne
    unfold Apart at this
    omega

/-- The header of the directory stays. -/
theorem OnlyLinks.header (hlinks : OnlyLinks s s' d entries) (h : FreshStore S s)
    (hd : (d, 96) ∈ s.live) (hl : HeaderList s d entries) :
    SameAt s.heap.mem s'.heap.mem (d, 88) := by
  intro a ha ha'
  dsimp only at ha ha'
  refine hlinks (d, 96) hd (show 96 < 2048 by decide) a ha (by dsimp only; omega) (by omega)
    fun t ht => ?_
  have := hl.apart h hd ht
  unfold Apart at this
  omega

/-! ## New objects -/

theorem allocate_expanded (hsize : size < 2048) (hcall : allocate s size = .ok (p, s')) :
    s.heap.expanded ≤ s'.heap.expanded := by
  obtain ⟨hk, -⟩ := size_lt_block hsize
  have hmalloc : Malloc.malloc s.heap size = some (mallocSmall s.heap (sizeClass size)) :=
    if_neg (by omega)
  have hcount := pagesNeeded_small (h := s.heap) hk
  generalize mallocSmall s.heap (sizeClass size) = r at hmalloc hcount
  rw [allocate_of_malloc hmalloc] at hcall
  obtain ⟨-, rfl⟩ := Prod.mk.inj (Except.ok.inj hcall)
  exact hcount ▸ Nat.le_add_right ..

theorem attach_expanded {field : ℕ} (hattach : attach s field o = .ok s') :
    s.heap.expanded ≤ s'.heap.expanded := by
  obtain ⟨⟨node, s₁⟩, hcall, hs'⟩ := bind_eq_ok.mp hattach
  obtain rfl := Except.ok.inj hs'
  have hle : s.heap.expanded ≤ s₁.heap.expanded :=
    allocate_expanded (show 16 < 2048 by decide) hcall
  exact hle

theorem directoryAddChild_expanded (hadd : directoryAddChild fuel s d o = .ok s') :
    s.heap.expanded ≤ s'.heap.expanded := by
  rw [directoryAddChild] at hadd
  dsimp only at hadd
  split_ifs at hadd
  · exact attach_expanded hadd
  · obtain ⟨last, -, hattach⟩ := bind_eq_ok.mp hadd
    exact attach_expanded hattach

/-- **A new object**: the writes into its block leave everything else as it is. -/
theorem FreshStore.newObject (h : FreshStore S s) (hsize : size < 2048)
    (hcall : Io.allocate s size = .ok (p, s')) (hsupply : s'.heap.expanded ≤ S.count) {m : Memory}
    (hm : ∀ a, ¬ (p ≤ a ∧ a < p + size) → m a = s'.heap.mem a) :
    s'.live = (p, size) :: s.live ∧ FreshStore S (Io.setMem s' m) ∧
      (∀ x ∈ s.live, x.2 < 2048 → SameAt s.heap.mem m x) ∧
      Granted S s.heap s'.heap (sizeClass size) p (freeLink s.heap (sizeClass size)) := by
  obtain ⟨p', s'', hcall', hlive, -, hspec⟩ := h.allocate_small hsize
  rw [hcall] at hcall'
  obtain ⟨rfl, rfl⟩ := Prod.mk.inj (Except.ok.inj hcall')
  obtain ⟨hfresh, hgrant⟩ := hspec hsupply
  have hp : (p, size) ∈ s'.live := hlive ▸ List.mem_cons_self ..
  refine ⟨hlive, hfresh.setMem hp hsize hm, fun x hx hn a ha ha' => ?_, hgrant⟩
  have hx' : x ∈ s'.live := hlive ▸ List.mem_cons_of_mem _ hx
  have := hfresh.apart hx' hp hn hsize (hfresh.new_ne hlive hx)
  unfold Apart at this
  rw [hm a (by omega)]
  exact h.granted_same hgrant hx hn a ha ha'

end Store

end Cutesugar.Kernel.Io
