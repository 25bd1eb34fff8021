import Cutesugar.Lib.Bits
import Cutesugar.Lib.Chain
import Cutesugar.Lib.Memory

/-!
# The kernel heap (`kernel/misc/malloc.c`)

Blocks of a size class are carved out of pages. Every page starts with a 24-byte header,
found again from a block by masking the pointer:

- `MallocBinHeader`: `next` at offset 0, `head` at offset 8, `size` (an `int`) at offset 16.
- `MallocBigBinHeader`: the same three fields and `used` (a `char`) at offset 20.

The free blocks of a page form a stack threaded through their own first word, and the pages
of a class that have a free block form a list through `next`.
-/

namespace Cutesugar.Kernel.Malloc

open Lib Lib.Memory

/-! ## State -/

/-- The memory and the static variables of the allocator. `pages i` is what the `i`-th call
of `KernelExpandHeap` returns and `expanded` counts the calls made so far. -/
structure Heap where
  mem : Memory
  binHeaders : ℕ → ℕ
  firstBigBinHeader : ℕ
  pages : ℕ → ℕ
  expanded : ℕ

/-- `sizeof(struct MallocBinHeader)`, padding included. -/
def headerBytes : ℕ := 24

/-- A 32-bit `int` read from its bit pattern. -/
def toInt (x : ℕ) : ℤ := if x < 2 ^ 31 then x else x - 2 ^ 32

def headerNext (m : Memory) (p : ℕ) : ℕ := m.load64 p
def headerHead (m : Memory) (p : ℕ) : ℕ := m.load64 (p + 8)
def headerSize (m : Memory) (p : ℕ) : ℤ := toInt (m.load (p + 16) 4)
def headerUsed (m : Memory) (p : ℕ) : UInt8 := m (p + 20)

/-- `KernelExpandHeap`: the next page of the supply. -/
def kernelExpandHeap (h : Heap) : ℕ × Heap :=
  (h.pages h.expanded, { h with expanded := h.expanded + 1 })

/-! ## Free stacks and bin lists -/

def pushToStack (h : Heap) (header ptr : ℕ) : Heap :=
  let m := h.mem.store64 ptr (headerHead h.mem header)
  { h with mem := m.store64 (header + 8) ptr }

def popFromStack (h : Heap) (header : ℕ) : ℕ × Heap :=
  let item := headerHead h.mem header
  let next := h.mem.load64 item
  (item, { h with mem := h.mem.store64 (header + 8) next })

def mallocNeedsExpansion (h : Heap) (header : ℕ) : Bool :=
  header == 0 || headerHead h.mem header == 0

def mallocListAdd (h : Heap) (header listIndex : ℕ) : Heap :=
  { h with
    mem := h.mem.store64 header (h.binHeaders listIndex)
    binHeaders := Function.update h.binHeaders listIndex header }

def mallocListDecouple (h : Heap) (listIndex node : ℕ) : Heap :=
  { h with
    binHeaders := Function.update h.binHeaders listIndex (headerNext h.mem node)
    mem := h.mem.store64 node 0 }

/-! ## `malloc` -/

/-- The loop `for (; size; size /= 2) ++list`, with one round per bit of a `size_t`. -/
def sizeClassLoop : ℕ → ℕ → ℕ → ℕ
  | 0, _, list => list
  | fuel + 1, size, list => if size = 0 then list else sizeClassLoop fuel (size / 2) (list + 1)

/-- The size class `list` that `malloc` computes from the requested size. -/
def sizeClass (size : ℕ) : ℕ := sizeClassLoop 64 (size / 8) 0

/-- The index of the last block of a page of class `list`. -/
def available (list : ℕ) : ℕ := ((0x1000 - headerBytes) >>> (3 + list)) - 1

/-- The loop that links block `i` of a page to block `i + 1`, after `n` rounds. -/
def linkBlocks (m : Memory) (base list : ℕ) : ℕ → Memory
  | 0 => m
  | i + 1 => (linkBlocks m base list i).store64 (base + 8 * (i <<< list))
      (base + 8 * ((i + 1) <<< list))

/-- Take a new page for class `list` and thread its free stack. -/
def expandBin (h : Heap) (list : ℕ) : Heap :=
  let (binHeader, h) := kernelExpandHeap h
  let h := { h with mem := h.mem.store64 (binHeader + 8) (binHeader + headerBytes) }
  let h := mallocListAdd h binHeader list
  let base := headerHead h.mem binHeader
  let m := linkBlocks h.mem base list (available list)
  let m := m.store64 (base + 8 * (available list <<< list)) 0
  { h with mem := m.store (binHeader + 16) 4 list }

/-- The part of `malloc` for the classes below 9. -/
def mallocSmall (h : Heap) (list : ℕ) : ℕ × Heap :=
  let h := if mallocNeedsExpansion h (h.binHeaders list) then expandBin h list else h
  let (memAddress, h) := popFromStack h (h.binHeaders list)
  if headerHead h.mem (h.binHeaders list) = 0 then
    (memAddress, mallocListDecouple h list (h.binHeaders list))
  else (memAddress, h)

/-- The rounds of `for (i = 1; i <= (2 << (list - 9)); ++i)`. The bound is an `int`: the processor
shifts by the count modulo 32, and nothing is left of what is shifted out. -/
def extraPages (list : ℕ) : ℕ := (toInt ((2 <<< ((list - 9) % 32)) % 2 ^ 32)).toNat

/-- The pages after the first of a big block: their addresses are dropped. -/
def expandMore (h : Heap) (list : ℕ) : Heap :=
  { h with expanded := h.expanded + extraPages list }

/-- The fields of a new `MallocBigBinHeader`. -/
def initBigHeader (m : Memory) (p size : ℕ) : Memory :=
  let m := m.store64 (p + 8) (p + headerBytes)
  let m := m.store (p + 16) 4 size
  let m := m.store (p + 20) 1 1
  m.store64 p 0

/-- The part of `malloc` for the classes from 9 on. `none`: the walk over the big headers
does not end. -/
def mallocBig (h : Heap) (list : ℕ) : Option (ℕ × Heap) :=
  if h.firstBigBinHeader = 0 then
    let (first, h) := kernelExpandHeap h
    let m := initBigHeader h.mem first list
    some (headerHead m first, expandMore { h with mem := m, firstBigBinHeader := first } list)
  else
    let stop := fun t => headerNext h.mem t == 0 ||
      (headerUsed h.mem t == 0 && decide ((list : ℤ) ≤ headerSize h.mem t))
    match walk (headerNext h.mem) stop h.expanded h.firstBigBinHeader with
    | none => none
    | some traversal =>
      if headerNext h.mem traversal ≠ 0 then
        -- a free block is reused; its `used` flag stays 0
        some (headerHead h.mem traversal, h)
      else
        let (next, h) := kernelExpandHeap h
        -- the variable `size` stored here has been shifted down to 0 by the class loop
        let m := initBigHeader (h.mem.store64 traversal next) next 0
        some (headerHead m next, expandMore { h with mem := m } list)

def malloc (h : Heap) (size : ℕ) : Option (ℕ × Heap) :=
  if 9 ≤ sizeClass size then mallocBig h (sizeClass size)
  else some (mallocSmall h (sizeClass size))

/-! ## `free` -/

def free (h : Heap) (memoryAddress : ℕ) : Heap :=
  -- the parameter itself is masked: from here on it is the page, not the block
  let memoryAddress := if memoryAddress &&& 0xFFF ≠ 0 then memoryAddress &&& 0xFFFFFFFFFFFFF000
    else memoryAddress
  let header := memoryAddress
  if 9 ≤ headerSize h.mem header then
    { h with mem := h.mem.store (memoryAddress + 20) 1 0 }
  else
    let h := pushToStack h header memoryAddress
    if headerHead h.mem header ≠ 0 then mallocListAdd h header (headerSize h.mem header).toNat
    else h

/-! ## Size classes -/

theorem sizeClassLoop_le (fuel list : ℕ) {n k : ℕ} (h : n < 2 ^ k) :
    sizeClassLoop fuel n list ≤ list + k := by
  induction fuel generalizing n list k with
  | zero => simp [sizeClassLoop]
  | succ fuel ih =>
    rw [sizeClassLoop]
    split_ifs with hn
    · omega
    · obtain ⟨k, rfl⟩ : ∃ j, k = j + 1 := by
        cases k with
        | zero => omega
        | succ j => exact ⟨j, rfl⟩
      have hhalf : n / 2 < 2 ^ k := by rw [pow_succ] at h; omega
      have := ih (list + 1) hhalf
      omega

theorem lt_two_pow_sizeClassLoop (fuel list : ℕ) {n : ℕ} (h : n < 2 ^ fuel) :
    list ≤ sizeClassLoop fuel n list ∧ n < 2 ^ (sizeClassLoop fuel n list - list) := by
  induction fuel generalizing n list with
  | zero => simpa [sizeClassLoop] using h
  | succ fuel ih =>
    rw [sizeClassLoop]
    split_ifs with hn
    · simp [hn]
    · obtain ⟨hle, hlt⟩ := ih (list + 1) (n := n / 2) (by rw [pow_succ] at h; omega)
      refine ⟨by omega, ?_⟩
      have hexp : sizeClassLoop fuel (n / 2) (list + 1) - list =
          sizeClassLoop fuel (n / 2) (list + 1) - (list + 1) + 1 := by omega
      rw [hexp, pow_succ]
      omega

/-- Requests below 2048 bytes fall in the classes 0 to 8. -/
theorem sizeClass_le_eight {size : ℕ} (h : size < 2048) : sizeClass size ≤ 8 := by
  have := sizeClassLoop_le 64 0 (show size / 8 < 2 ^ 8 by omega)
  simpa [sizeClass] using this

/-- A block of the class has more bytes than were asked for. -/
theorem size_lt_of_sizeClass {size : ℕ} (h : size < 2 ^ 64) : size < 8 * 2 ^ sizeClass size := by
  have := (lt_two_pow_sizeClassLoop 64 0 (show size / 8 < 2 ^ 64 by omega)).2
  simp only [sizeClass, Nat.sub_zero] at this ⊢
  omega

/-- Requests below `2 ^ 41` bytes have a class the shift of which does not overflow. -/
theorem sizeClass_le_of_lt {size : ℕ} (h : size < 2 ^ 41) : sizeClass size ≤ 38 := by
  have := sizeClassLoop_le 64 0 (show size / 8 < 2 ^ 38 by omega)
  simpa [sizeClass] using this

/-- As long as the `int` does not overflow, the pages double from class to class. -/
theorem extraPages_eq {c : ℕ} (hc : c ≤ 38) : extraPages c = 2 * 2 ^ (c - 9) := by
  have hpow : 2 ^ (c - 9) ≤ 2 ^ 29 := Nat.pow_le_pow_right (by decide) (by omega)
  have hcount : (c - 9) % 32 = c - 9 := Nat.mod_eq_of_lt (by omega)
  rw [extraPages, hcount, Nat.shiftLeft_eq, Nat.mod_eq_of_lt (by omega), toInt, if_pos (by omega)]
  exact Int.toNat_natCast _

theorem extraPages_mono {c c' : ℕ} (h : c ≤ c') (hc : c' ≤ 38) : extraPages c ≤ extraPages c' := by
  rw [extraPages_eq hc, extraPages_eq (h.trans hc)]
  exact Nat.mul_le_mul_left _ (Nat.pow_le_pow_right (by decide) (by omega))

/-- A request of `2 ^ 41` bytes takes no page behind its first: the shift gives `INT_MIN`. -/
example : extraPages (sizeClass (2 ^ 41)) = 0 := by decide

end Cutesugar.Kernel.Malloc
