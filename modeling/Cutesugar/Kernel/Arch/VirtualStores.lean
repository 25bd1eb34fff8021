import Cutesugar.Kernel.Arch.AddressSpace

/-!
# Fields at virtual addresses

A driver of the kernel sees a structure of its device through a mapped page: it assigns fields, reads them
back and clears a part of the page. On pages that are bound to frames of their own each of these acts on the
bytes of the frame. A page is bound to a frame that nothing else uses, and then it is one of these pages.

- `storeAt`, `loadAt`, `memsetAt`: a field of some bytes, and `memset`, through the tables of the kernel.
- `Owned.storeAt_eq`, `Owned.loadAt_eq`, `Owned.memsetAt_eq`: what they do to the frame.
- `Unused`, `Owned.mapValue`: binding a page to a frame that is not in use.
-/

namespace Cutesugar.Kernel.Mmu

open Lib Lib.Memory

variable (P : Platform)

/-! ## Accesses of the kernel -/

/-- The bytes of a number, the least significant first. -/
def wordBytes (n value : ℕ) : List UInt8 := (List.range n).map fun i => UInt8.ofNat (value / 256 ^ i)

/-- An assignment to a field of `n` bytes; `none` is a fault. -/
def storeAt (s : State) (v n value : ℕ) : Option State :=
  (copyTo P P.kernelPml4 s.mem v (wordBytes n value)).map s.withMem

/-- `memset`. -/
def memsetAt (s : State) (v : ℕ) (c : UInt8) (n : ℕ) : Option State :=
  (copyTo P P.kernelPml4 s.mem v (List.replicate n c)).map s.withMem

/-- The value of a field of `n` bytes. -/
def loadAt (s : State) (v : ℕ) : ℕ → Option ℕ
  | 0 => some 0
  | n + 1 => do
    let b ← byteAt P s.mem P.kernelPml4 (v % 2 ^ 64)
    let rest ← loadAt s (v + 1) n
    some (b.toNat + 256 * rest)

/-! ## Bytes in a row -/

section Bytes

variable {m : Memory} {a n value : ℕ} {b c : UInt8} {bs : List UInt8}

theorem writeBytes_cons : m.writeBytes a (b :: bs) = Memory.writeBytes (Function.update m a b) (a + 1) bs := by
  funext x
  unfold writeBytes
  rcases Nat.lt_trichotomy x a with hlt | rfl | hgt
  · rw [if_neg (by omega), if_neg (by omega), Function.update_of_ne (by omega)]
  · rw [if_pos ⟨le_rfl, by simp⟩, if_neg (by omega), Function.update_self, Nat.sub_self]
    rfl
  · rw [Function.update_of_ne (by omega), List.length_cons]
    have hsub : x - a = x - (a + 1) + 1 := by omega
    by_cases hin : x < a + 1 + bs.length
    · rw [if_pos (by omega), if_pos (by omega), hsub]
      rfl
    · rw [if_neg (by omega), if_neg (by omega)]

theorem length_wordBytes : (wordBytes n value).length = n := by
  rw [wordBytes, List.length_map, List.length_range]

theorem writeBytes_wordBytes : m.writeBytes a (wordBytes n value) = m.store a n value := by
  funext x
  rw [writeBytes, store, length_wordBytes]
  split_ifs with hin
  · have hlt : x - a < n := by omega
    simp [wordBytes, List.getD_eq_getElem?_getD, hlt]
  · rfl

theorem writeBytes_replicate : m.writeBytes a (List.replicate n c) = m.memset a c n := by
  funext x
  rw [writeBytes, memset, List.length_replicate]
  split_ifs with hin
  · have hlt : x - a < n := by omega
    simp [List.getD_eq_getElem?_getD, hlt]
  · rfl

end Bytes

/-! ## Accesses to pages with frames of their own -/

variable {P} {root count : ℕ} {s s' : State} {M : PageMap} {U : Set ℕ} {p f o n : ℕ}

theorem Canonical.add_of_lt (h : Canonical (4096 * p)) (ho : o < 4096) : Canonical (4096 * p + o) := by
  unfold Canonical at *
  omega

/-- The byte of the frame behind an address. -/
theorem Owned.physical_eq (h : Owned P root count s M U) (hp : p ∈ U) (hf : M p = some f) (ho : o < 4096) :
    physical P s.mem root ((4096 * p + o) % 2 ^ 64) = some (f + P.hhdmOffset + o) := by
  have hcanonical := (h.canonical p hp).add_of_lt ho
  have hmod : (4096 * p + o) % 2 ^ 64 = 4096 * p + o := by
    unfold Canonical at hcanonical
    omega
  have hpage : (4096 * p + o) / 4096 = p := by omega
  have hoffset : (4096 * p + o) % 4096 = o := by omega
  rw [hmod, Mmu.physical_eq h.refines hcanonical, hpage, hf, hoffset]
  rfl

/-- Bytes of a frame may be written. -/
theorem Owned.writeBytes (h : Owned P root count s M U) {bs : List UInt8} (hp : p ∈ U) (hf : M p = some f)
    (ho : o + bs.length ≤ 4096) :
    Owned P root count (s.withMem (s.mem.writeBytes (f + P.hhdmOffset + o) bs)) M U := by
  refine h.congr fun q u j hq hlq hu hj => ?_
  have hout := h.tables p hp f hf q u hq hlq hu
  refine load64_congr fun c hc hc' => writeBytes_apply_of_not_mem ?_
  unfold Apart at hout
  omega

/-- **Copying to a page** writes its frame. -/
theorem Owned.copyTo_eq (h : Owned P root count s M U) {bs : List UInt8} (hp : p ∈ U) (hf : M p = some f)
    (ho : o + bs.length ≤ 4096) :
    copyTo P root s.mem (4096 * p + o) bs = some (s.mem.writeBytes (f + P.hhdmOffset + o) bs) := by
  induction bs generalizing s o with
  | nil =>
    rw [Mmu.copyTo]
    congr 1
    funext x
    exact (writeBytes_apply_of_not_mem (by simp)).symm
  | cons b bs ih =>
    rw [List.length_cons] at ho
    have hlt : o < 4096 := by omega
    have hrest := ih (h.write hp hf hlt b) (o := o + 1) (by omega)
    rw [Mmu.copyTo, h.physical_eq hp hf hlt, writeBytes_cons]
    exact hrest

variable {v value : ℕ} {c : UInt8}

/-- What an access to a page leaves: the frame with other bytes, and the pages as they were. -/
theorem Owned.storeAt_eq (h : Owned P P.kernelPml4 count s M U) (hp : p ∈ U) (hf : M p = some f)
    (hv : v = 4096 * p + o) (ho : o + n ≤ 4096) :
    storeAt P s v n value = some (s.withMem (s.mem.store (f + P.hhdmOffset + o) n value)) ∧
      Owned P P.kernelPml4 count (s.withMem (s.mem.store (f + P.hhdmOffset + o) n value)) M U := by
  subst hv
  have hlen : o + (wordBytes n value).length ≤ 4096 := by rwa [length_wordBytes]
  rw [storeAt, h.copyTo_eq hp hf hlen, ← writeBytes_wordBytes]
  exact ⟨rfl, h.writeBytes hp hf hlen⟩

theorem Owned.memsetAt_eq (h : Owned P P.kernelPml4 count s M U) (hp : p ∈ U) (hf : M p = some f)
    (hv : v = 4096 * p + o) (ho : o + n ≤ 4096) :
    memsetAt P s v c n = some (s.withMem (s.mem.memset (f + P.hhdmOffset + o) c n)) ∧
      Owned P P.kernelPml4 count (s.withMem (s.mem.memset (f + P.hhdmOffset + o) c n)) M U := by
  subst hv
  have hlen : o + (List.replicate n c).length ≤ 4096 := by rwa [List.length_replicate]
  rw [memsetAt, h.copyTo_eq hp hf hlen, ← writeBytes_replicate]
  exact ⟨rfl, h.writeBytes hp hf hlen⟩

theorem Owned.loadAt_eq (h : Owned P P.kernelPml4 count s M U) (hp : p ∈ U) (hf : M p = some f)
    (hv : v = 4096 * p + o) (ho : o + n ≤ 4096) :
    loadAt P s v n = some (s.mem.load (f + P.hhdmOffset + o) n) := by
  induction n generalizing v o with
  | zero => rfl
  | succ n ih =>
    have hrest := ih (v := v + 1) (o := o + 1) (by omega) (by omega)
    rw [loadAt, byteAt, hv, h.physical_eq hp hf (by omega), Option.map_some, ← hv, hrest, load_succ]
    rfl

/-! ## Binding a page to a frame -/

/-- The frame is bound to no page of the set, is no table and is not left in the pool. -/
structure Unused (P : Platform) (root count : ℕ) (s : State) (M : PageMap) (U : Set ℕ) (f : ℕ) : Prop where
  unbound : ∀ p ∈ U, M p ≠ some f
  tables : ∀ q t, (View.single root).Path root q → q.length ≤ 3 → tableAt P s.mem root q = some t →
    Apart (f + P.hhdmOffset) 4096 t 4096
  pool : ∀ k, s.stackPosition ≤ k → k < count → f ≠ s.memList k

/-- The frame that has just been taken is not in use. -/
theorem Owned.unused_allocate (h : Owned P root count s M U) (hroom : s.stackPosition < count) :
    Unused P root count (kernelAllocateFrame s).2 M U (s.memList s.stackPosition) where
  unbound p hp hf := h.unused p hp _ hf _ le_rfl hroom rfl
  tables _ _ hq hlq ht := (h.refines.forest.fresh hq hlq ht _ le_rfl hroom).symm
  pool k hk hk' heq := by
    have hsame := h.refines.forest.pool.distinct _ k le_rfl hroom (Nat.le_of_succ_le hk) hk' heq
    change s.stackPosition + 1 ≤ k at hk
    omega

/-- What a mapping does beside binding its page. -/
structure Maps (P : Platform) (root count : ℕ) (s s' : State) (M' : PageMap) (U : Set ℕ) : Prop where
  owned : Owned P root count s' M' U
  list : s'.memList = s.memList
  pos : s.stackPosition ≤ s'.stackPosition
  takes : TakesTables P (View.single root) s s'
  frame : ∀ b, (∀ q t, (View.single root).Path root q → q.length ≤ 3 → tableAt P s'.mem root q = some t →
    ¬ (t ≤ b ∧ b < t + 4096)) → s'.mem b = s.mem b

/-- **A mapping**: its page is bound unless it was, and where it is a page of the set it must be bound to a
frame that is not in use. -/
theorem Owned.mapValue (h : Owned P root count s M U) (hroot : root ≠ 0) {pa : ℕ} (hv : Canonical v)
    (haligned : pa % 4096 = 0) (hbelow : pa < 2 ^ 63) (hval : Flags value)
    (hroom : (mapValue P s root v pa value).stackPosition ≤ count)
    (hunused : v / 4096 ∈ U → M (v / 4096) = none → Unused P root count s M U pa) :
    Maps P root count s (mapValue P s root v pa value) (M.map (v / 4096) pa) U := by
  have hpool := h.refines.forest.pool
  have hpath := View.single_path root v
  have hpa : pa < 2 ^ 64 := hbelow.trans (by decide)
  have hword : pa ||| value < 2 ^ 64 := Nat.or_lt_two_pow hpa (hval.lt.trans (by decide))
  have hpos := le_mapValue_stackPosition (P := P) s root v pa value
  have hrefines := h.refines.bind hroot hv haligned hbelow hval hroom
  obtain ⟨htakes, hlist⟩ := mapValue_takes h.refines.forest hpath hroot hval hpa hroom
  have hbytes (b : ℕ) := mapValue_apply (b := b) h.refines.forest hpath hroot hval hword hroom
  generalize Mmu.mapValue P s root v pa value = s' at *
  -- a frame that a page is bound to is an old one or the new one, and neither is a table
  have htables : ∀ p ∈ U, ∀ f, M.map (v / 4096) pa p = some f → ∀ q t,
      (View.single root).Path root q → q.length ≤ 3 → tableAt P s'.mem root q = some t →
      Apart (f + P.hhdmOffset) 4096 t 4096 := by
    intro p hp f hf q t hq hlq ht
    rcases htakes hq hlq ht with hold | ⟨k, hk, hk', rfl⟩
    · rcases PageMap.map_eq_some hf with hf | ⟨rfl, rfl, hnone⟩
      · exact h.tables p hp f hf q t hq hlq hold
      · exact (hunused hp hnone).tables q t hq hlq hold
    · have hkc : k < count := hk'.trans_le hroom
      have hk0 := hpool.aligned k hk hkc
      have hne : f ≠ s.memList k ∧ f % 4096 = 0 := by
        rcases PageMap.map_eq_some hf with hf | ⟨rfl, rfl, hnone⟩
        · exact ⟨h.unused p hp f hf k hk hkc, h.aligned hp hf⟩
        · exact ⟨(hunused hp hnone).pool k hk hkc, haligned⟩
      unfold Apart frameAt
      omega
  refine ⟨⟨hrefines, h.canonical, ?_, htables, ?_⟩, hlist, hpos, htakes, ?_⟩
  · intro p hp q hq f hf hf'
    rcases PageMap.map_eq_some hf with hold | ⟨rfl, rfl, hnone⟩
    · rcases PageMap.map_eq_some hf' with hold' | ⟨rfl, rfl, hnone⟩
      · exact h.distinct p hp q hq f hold hold'
      · exact absurd hold ((hunused hq hnone).unbound p hp)
    · rcases PageMap.map_eq_some hf' with hold' | ⟨rfl, -, -⟩
      · exact absurd hold' ((hunused hp hnone).unbound q hq)
      · rfl
  · intro p hp f hf k hk hk'
    rw [hlist]
    rcases PageMap.map_eq_some hf with hf | ⟨rfl, rfl, hnone⟩
    · exact h.unused p hp f hf k (hpos.trans hk) hk'
    · exact (hunused hp hnone).pool k (hpos.trans hk) hk'
  · intro b hb
    exact hbytes b fun q t hq hlq ht => hb q t hq hlq ht

end Cutesugar.Kernel.Mmu
