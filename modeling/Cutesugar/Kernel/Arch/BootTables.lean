import Cutesugar.Kernel.Arch.AddressSpace

/-!
# The page tables of the kernel (`KernelInitializePaging`)

The boot loader's tables are still active while the kernel fills its own, so a write to a static array
reaches physical memory through them, and `KernelGetPhysicalAddress` on them says where a table is.
Memory here is physical memory, seen through a translation of virtual addresses.

The rows of the last tables are twice as long as a table of the processor, and the second halves are
filled like the first ones.

- `kernelInitializePaging`: the function, and `kernelInitializePaging_eq`: all that it writes.
- `LoaderMaps`: what the boot loader is relied on for.
- `walk_eq`: a walk from `kernel_pml4` afterwards.
-/

namespace Cutesugar.Kernel.Mmu

open Lib Lib.Memory

/-! ## The static arrays -/

/-- The elements of the arrays. -/
inductive Slot
  | kernelPml4 (i : ℕ)
  | kernelHpd (i : ℕ)
  | kernelLpd (kpd : ℕ)
  | kernelPt (kpd kpt : ℕ)
  | hhdmHpd (hpdp : ℕ)
  | hhdmLpd (hpdp hpd : ℕ)
  | hhdmPt (hpdp hpd hpt : ℕ)
  deriving DecidableEq

/-- Within the bounds that the arrays are declared with. -/
def Slot.Within : Slot → Prop
  | .kernelPml4 i | .kernelHpd i | .kernelLpd i | .hhdmHpd i => i < 512
  | .kernelPt kpd kpt => kpd < 512 ∧ kpt < 1024
  | .hhdmLpd hpdp hpd => hpdp < 4 ∧ hpd < 512
  | .hhdmPt hpdp hpd hpt => hpdp < 4 ∧ hpd < 512 ∧ hpt < 1024

instance : (x : Slot) → Decidable x.Within
  | .kernelPml4 _ | .kernelHpd _ | .kernelLpd _ | .hhdmHpd _ => inferInstanceAs (Decidable (_ < _))
  | .kernelPt _ _ | .hhdmLpd _ _ => inferInstanceAs (Decidable (_ ∧ _))
  | .hhdmPt _ _ _ => inferInstanceAs (Decidable (_ ∧ _ ∧ _))

/-- The number of the array and the place in it. -/
def Slot.array : Slot → ℕ
  | .kernelPml4 _ => 0
  | .kernelHpd _ => 1
  | .kernelLpd _ => 2
  | .kernelPt _ _ => 3
  | .hhdmHpd _ => 4
  | .hhdmLpd _ _ => 5
  | .hhdmPt _ _ _ => 6

def Slot.offset : Slot → ℕ
  | .kernelPml4 i | .kernelHpd i | .kernelLpd i | .hhdmHpd i => 8 * i
  | .kernelPt kpd kpt => 8192 * kpd + 8 * kpt
  | .hhdmLpd hpdp hpd => 4096 * hpdp + 8 * hpd
  | .hhdmPt hpdp hpd hpt => 0x400000 * hpdp + (8192 * hpd + 8 * hpt)

theorem Slot.offset_apart {x y : Slot} (hx : x.Within) (hy : y.Within) (harray : x.array = y.array)
    (hne : x ≠ y) : Apart x.offset 8 y.offset 8 := by
  cases x <;> cases y <;> simp only [array, reduceCtorEq] at harray <;>
    simp only [Within] at hx hy <;>
    simp only [ne_eq, kernelPml4.injEq, kernelHpd.injEq, kernelLpd.injEq, kernelPt.injEq,
      hhdmHpd.injEq, hhdmLpd.injEq, hhdmPt.injEq] at hne <;>
    simp only [Apart, offset] <;> omega

/-- What the boot loader and the linker decide: the root in `cr3`, the physical address behind each
virtual one, and the addresses of the arrays besides `kernel_pml4`. -/
structure Boot where
  platform : Platform
  cr3 : ℕ
  translate : ℕ → ℕ
  kernelHpd : ℕ
  kernelLpd : ℕ
  kernelPt : ℕ
  hhdmHpd : ℕ
  hhdmLpd : ℕ
  hhdmPt : ℕ

/-- Where the image of the kernel is linked to. -/
@[irreducible] def kernelBase : ℕ := 0xFFFFFFFF80000000

theorem kernelBase_eq : kernelBase = 2 ^ 64 - 2 ^ 31 := by
  unfold kernelBase
  rfl

namespace Boot

variable (B : Boot)

def address : Slot → ℕ
  | .kernelPml4 i => B.platform.kernelPml4 + 8 * i
  | .kernelHpd i => B.kernelHpd + 8 * i
  | .kernelLpd kpd => B.kernelLpd + 8 * kpd
  | .kernelPt kpd kpt => B.kernelPt + 8192 * kpd + 8 * kpt
  | .hhdmHpd hpdp => B.hhdmHpd + 8 * hpdp
  | .hhdmLpd hpdp hpd => B.hhdmLpd + 4096 * hpdp + 8 * hpd
  | .hhdmPt hpdp hpd hpt => B.hhdmPt + 0x400000 * hpdp + 8192 * hpd + 8 * hpt

/-- The arrays, each with its size in bytes. -/
def arrays : List (ℕ × ℕ) :=
  [(B.platform.kernelPml4, 4096), (B.kernelHpd, 4096), (B.kernelLpd, 4096), (B.kernelPt, 0x400000),
    (B.hhdmHpd, 4096), (B.hhdmLpd, 0x4000), (B.hhdmPt, 0x1000000)]

/-! ## `KernelInitializePaging` -/

/-- Physical memory at the virtual addresses. -/
def seen (s : State) : State := { s with mem := fun a => s.mem (B.translate a) }

def assign (s : State) (x : Slot) (value : ℕ) : State :=
  { s with mem := s.mem.store64 (B.translate (B.address x)) value }

/-- `KernelGetPhysicalAddress(old_root, ...)`. -/
def find (s : State) (virtualAddress : ℕ) : ℕ :=
  let oldRoot := (B.cr3 + B.platform.hhdmOffset) % 2 ^ 64
  kernelGetPhysicalAddress B.platform (B.seen s) oldRoot virtualAddress

/-- The loop over a row of `kernel_pt`. -/
def fillKernelPt (kernelPhysicalAddress kpd : ℕ) (s : State) : State :=
  (List.range 1024).foldl (fun s kpt => B.assign s (.kernelPt kpd kpt)
    ((kernelPhysicalAddress + (kpd <<< 21) + (kpt <<< 12)) % 2 ^ 64 ||| 3)) s

/-- The loop over `kernel_lpd`. -/
def fillKernelLpd (kernelPhysicalAddress : ℕ) (s : State) : State :=
  (List.range 512).foldl (fun s kpd =>
    let s := B.assign s (.kernelLpd kpd) (B.find s (B.address (.kernelPt kpd 0)) ||| 3)
    B.fillKernelPt kernelPhysicalAddress kpd s) s

/-- The loop over a row of `hhdm_pt`. -/
def fillHhdmPt (hpdp hpd : ℕ) (s : State) : State :=
  (List.range 1024).foldl (fun s hpt => B.assign s (.hhdmPt hpdp hpd hpt)
    ((hpdp <<< 30) + (hpd <<< 21) + (hpt <<< 12) ||| 7)) s

/-- The loop over a row of `hhdm_lpd`. -/
def fillHhdmLpd (hpdp : ℕ) (s : State) : State :=
  (List.range 512).foldl (fun s hpd =>
    let s := B.assign s (.hhdmLpd hpdp hpd) (B.find s (B.address (.hhdmPt hpdp hpd 0)) ||| 7)
    B.fillHhdmPt hpdp hpd s) s

/-- The loop over `hhdm_hpd`. -/
def fillHhdmHpd (s : State) : State :=
  (List.range 4).foldl (fun s hpdp =>
    let s := B.assign s (.hhdmHpd hpdp) (B.find s (B.address (.hhdmLpd hpdp 0)) ||| 7)
    B.fillHhdmLpd hpdp s) s

/-- `KernelInitializePaging`, with the memory map of the boot loader: the new `cr3` and the state. -/
def kernelInitializePaging (memmap : Option (List MemmapEntry)) (s : State) :
    Except MemmapFault (ℕ × State) :=
  let kernelPhysicalAddress := B.find s kernelBase
  -- the image of the kernel, under the last entry of the root
  let s := B.assign s (.kernelPml4 511) (B.find s B.kernelHpd ||| 3)
  let s := B.assign s (.kernelHpd 510) (B.find s B.kernelLpd ||| 3)
  let s := B.fillKernelLpd kernelPhysicalAddress s
  -- physical memory, open to ring 3
  let s := B.assign s (.kernelPml4 256) (B.find s B.hhdmHpd ||| 7)
  let s := B.fillHhdmHpd s
  let kernelPml4Address := B.find s B.platform.kernelPml4
  (kernelInitializeMemStack memmap s).map fun s => (kernelPml4Address, s)

/-! ## What the boot loader has set up -/

/-- The bytes of an image of this size at this physical address. -/
def InImage (pa size p : ℕ) : Prop := pa ≤ p ∧ p < pa + size

/-- The image of the kernel holds the arrays, zero-filled, and is mapped page by page to contiguous
physical memory, which is there at the HHDM offset as well. The tables that map it are not in it. -/
structure LoaderMaps (pa size : ℕ) (s : State) : Prop where
  offset : B.platform.hhdmOffset = 0xFFFF800000000000
  below : pa + size ≤ 2 ^ 47
  image : ∀ y < size, B.translate (kernelBase + y) = pa + y
  frames : ∀ y < size, B.translate (B.platform.hhdmOffset + (pa + y)) = pa + y
  pages : ∀ s' : State, (∀ p, ¬ InImage pa size p → s'.mem p = s.mem p) →
    ∀ y < size, B.find s' (kernelBase + y) = pa + (y - y % 4096)
  inside : ∀ a ∈ B.arrays, kernelBase ≤ a.1 ∧ a.1 + a.2 ≤ kernelBase + size ∧ a.1 % 4096 = 0
  apart : B.arrays.Pairwise fun a b => Apart a.1 a.2 b.1 b.2
  zero : ∀ x, x.Within → (B.seen s).mem.load64 (B.address x) = 0

/-! ## Elements of the arrays -/

/-- The array of an element. -/
def block : Slot → ℕ × ℕ
  | .kernelPml4 _ => (B.platform.kernelPml4, 4096)
  | .kernelHpd _ => (B.kernelHpd, 4096)
  | .kernelLpd _ => (B.kernelLpd, 4096)
  | .kernelPt _ _ => (B.kernelPt, 0x400000)
  | .hhdmHpd _ => (B.hhdmHpd, 4096)
  | .hhdmLpd _ _ => (B.hhdmLpd, 0x4000)
  | .hhdmPt _ _ _ => (B.hhdmPt, 0x1000000)

theorem array_eq (x : Slot) : B.arrays[x.array]? = some (B.block x) := by
  cases x <;> rfl

theorem address_eq (x : Slot) : B.address x = (B.block x).1 + x.offset := by
  cases x <;> simp only [address, block, Slot.offset, Nat.add_assoc]

theorem offset_le {x : Slot} (hx : x.Within) : x.offset + 8 ≤ (B.block x).2 := by
  cases x <;> simp only [Slot.Within] at hx <;> simp only [block, Slot.offset] <;> omega

/-! ## All that is written -/

/-- The physical address of an element. -/
def place (pa : ℕ) (x : Slot) : ℕ := pa + (B.address x - kernelBase)

/-- What is written to an element. -/
def value (pa : ℕ) : Slot → ℕ
  | .kernelPml4 i =>
    if i = 511 then B.place pa (.kernelHpd 0) ||| 3 else B.place pa (.hhdmHpd 0) ||| 7
  | .kernelHpd _ => B.place pa (.kernelLpd 0) ||| 3
  | .kernelLpd kpd => B.place pa (.kernelPt kpd 0) ||| 3
  | .kernelPt kpd kpt => (pa + (kpd <<< 21) + (kpt <<< 12)) % 2 ^ 64 ||| 3
  | .hhdmHpd hpdp => B.place pa (.hhdmLpd hpdp 0) ||| 7
  | .hhdmLpd hpdp hpd => B.place pa (.hhdmPt hpdp hpd 0) ||| 7
  | .hhdmPt hpdp hpd hpt => (hpdp <<< 30) + (hpd <<< 21) + (hpt <<< 12) ||| 7

/-- The elements that the two outer loops write. -/
def kernelSlots : List Slot :=
  (List.range 512).flatMap fun kpd => .kernelLpd kpd :: (List.range 1024).map (.kernelPt kpd)

def hhdmSlots : List Slot :=
  (List.range 4).flatMap fun hpdp => .hhdmHpd hpdp ::
    (List.range 512).flatMap fun hpd => .hhdmLpd hpdp hpd :: (List.range 1024).map (.hhdmPt hpdp hpd)

/-- The elements that are written, in this order. -/
def written : List Slot :=
  [.kernelPml4 511, .kernelHpd 510] ++ kernelSlots ++ .kernelPml4 256 :: hhdmSlots

def assignAll (pa : ℕ) (xs : List Slot) (s : State) : State :=
  xs.foldl (fun s x => B.assign s x (B.value pa x)) s

theorem assignAll_nil (pa : ℕ) (s : State) : B.assignAll pa [] s = s := rfl

theorem assignAll_cons (pa : ℕ) (x : Slot) (xs : List Slot) (s : State) :
    B.assignAll pa (x :: xs) s = B.assignAll pa xs (B.assign s x (B.value pa x)) := rfl

theorem assignAll_append (pa : ℕ) (xs ys : List Slot) (s : State) :
    B.assignAll pa (xs ++ ys) s = B.assignAll pa ys (B.assignAll pa xs s) :=
  List.foldl_append

/-- What is read at an element. -/
def read (s : State) (x : Slot) : ℕ := (B.seen s).mem.load64 (B.address x)

/-- The elements in the second halves of the rows of the last tables. -/
def Upper : Slot → Prop
  | .kernelPt _ kpt => 512 ≤ kpt
  | .hhdmPt _ _ hpt => 512 ≤ hpt
  | _ => False

/-- The tables hold what `KernelInitializePaging` writes, except that the second halves of the rows may
hold anything. -/
def Tables (pa : ℕ) (s : State) : Prop :=
  ∀ x, x.Within → ¬ Upper x → B.read s x = if x ∈ written then B.value pa x else 0

/-- `KernelGetPhysicalAddress(kernel_pml4, ...)`. -/
def walk (s : State) (virtualAddress : ℕ) : ℕ :=
  kernelGetPhysicalAddress B.platform (B.seen s) B.platform.kernelPml4 virtualAddress

/-- Nothing outside of the image has changed. -/
def SameOutside (pa size : ℕ) (s s' : State) : Prop :=
  ∀ p, ¬ InImage pa size p → s'.mem p = s.mem p

variable {B} {pa size : ℕ} {s₀ s s' : State}

/-- A word seen through a translation that is contiguous at it. -/
theorem load_translate (m : Memory) (f : ℕ → ℕ) {a b n : ℕ} (h : ∀ k < n, f (a + k) = b + k) :
    Memory.load (fun c => m (f c)) a n = m.load b n := by
  induction n generalizing a b with
  | zero => rfl
  | succ n ih =>
    rw [load_succ, load_succ, ih (b := b + 1) fun k hk => ?_]
    · rw [show f a = b from h 0 (by omega)]
    · rw [Nat.add_assoc, h (1 + k) (by omega), Nat.add_assoc]

theorem fillKernelPt_eq (kpd : ℕ) (s : State) :
    B.fillKernelPt pa kpd s = B.assignAll pa ((List.range 1024).map (.kernelPt kpd)) s := by
  simp only [fillKernelPt, assignAll, List.foldl_map, value]

theorem fillHhdmPt_eq (hpdp hpd : ℕ) (s : State) :
    B.fillHhdmPt hpdp hpd s = B.assignAll pa ((List.range 1024).map (.hhdmPt hpdp hpd)) s := by
  simp only [fillHhdmPt, assignAll, List.foldl_map, value]

theorem mem_kernelSlots {x : Slot} : x ∈ kernelSlots ↔
    ∃ kpd < 512, x = .kernelLpd kpd ∨ ∃ kpt < 1024, x = .kernelPt kpd kpt := by
  simp only [kernelSlots, List.mem_flatMap, List.mem_cons, List.mem_map, List.mem_range, eq_comm]

theorem mem_hhdmSlots {x : Slot} : x ∈ hhdmSlots ↔
    ∃ hpdp < 4, x = .hhdmHpd hpdp ∨
      ∃ hpd < 512, x = .hhdmLpd hpdp hpd ∨ ∃ hpt < 1024, x = .hhdmPt hpdp hpd hpt := by
  simp only [hhdmSlots, List.mem_flatMap, List.mem_cons, List.mem_map, List.mem_range, eq_comm]

/-- The elements that are written. -/
def Assigned : Slot → Prop
  | .kernelPml4 i => i = 511 ∨ i = 256
  | .kernelHpd i => i = 510
  | .kernelLpd kpd => kpd < 512
  | .kernelPt kpd kpt => kpd < 512 ∧ kpt < 1024
  | .hhdmHpd hpdp => hpdp < 4
  | .hhdmLpd hpdp hpd => hpdp < 4 ∧ hpd < 512
  | .hhdmPt hpdp hpd hpt => hpdp < 4 ∧ hpd < 512 ∧ hpt < 1024

theorem mem_written {x : Slot} : x ∈ written ↔ Assigned x := by
  simp only [written, List.mem_append, List.mem_cons, List.not_mem_nil, mem_kernelSlots, mem_hhdmSlots]
  cases x <;> simp [Assigned]

theorem within_of_mem_written {x : Slot} (hx : x ∈ written) : x.Within := by
  rw [mem_written] at hx
  cases x <;> simp only [Assigned] at hx <;> simp only [Slot.Within] <;> omega

/-- Only the frames are filled in by `KernelInitializeMemStack`. -/
theorem mem_of_kernelInitializeMemStack {memmap : Option (List MemmapEntry)}
    (hinit : kernelInitializeMemStack memmap s = .ok s') : s'.mem = s.mem := by
  cases memmap with
  | none => cases hinit
  | some entries =>
    rw [kernelInitializeMemStack] at hinit
    cases hfill : fillEntries entries 0 s.memList 0 with
    | error f =>
      rw [hfill] at hinit
      cases hinit
    | ok r =>
      rw [hfill] at hinit
      cases hinit
      rfl

theorem Tables.value (ht : B.Tables pa s) {x : Slot} (hx : x ∈ written) (hlow : ¬ Upper x) :
    B.read s x = B.value pa x := by
  rw [ht x (within_of_mem_written hx) hlow, if_pos hx]

theorem Tables.zero (ht : B.Tables pa s) {x : Slot} (hx : x.Within) (hlow : ¬ Upper x)
    (hempty : x ∉ written) : B.read s x = 0 := by
  rw [ht x hx hlow, if_neg hempty]

/-- A walk through entries that are present. -/
theorem page_of_entries {P : Platform} {root v hpd lpd pt page : ℕ}
    (hhpd : entry s.mem root (pml4Index v) = hpd)
    (hlpd : entry s.mem (addTable P hpd) (hpdIndex v) = lpd)
    (hpt : entry s.mem (addTable P lpd) (lpdIndex v) = pt)
    (hpage : entry s.mem (addTable P pt) (ptIndex v) = page)
    (hpresent : present hpd ∧ present lpd ∧ present pt ∧ present page) :
    kernelGetPhysicalAddress P s root v = page &&& pageMask := by
  obtain ⟨h₁, h₂, h₃, h₄⟩ := hpresent
  rw [kernelGetPhysicalAddress]
  simp [hhpd, hlpd, hpt, hpage, h₁, h₂, h₃, h₄]

theorem walk_of_second_absent {v hpd : ℕ}
    (hhpd : entry (B.seen s).mem B.platform.kernelPml4 (pml4Index v) = hpd)
    (hlpd : entry (B.seen s).mem (addTable B.platform hpd) (hpdIndex v) = 0)
    (hpresent : present hpd = true) : B.walk s v = 2 ^ 64 - 3 := by
  rw [walk, kernelGetPhysicalAddress]
  simp [hhpd, hlpd, hpresent, present_zero]

section Image

variable (h : LoaderMaps B pa size s₀)
include h

/-- An array lies in the image, at the begin of a page. -/
theorem LoaderMaps.array_mem {i : ℕ} {a : ℕ × ℕ} (ha : B.arrays[i]? = some a) :
    kernelBase ≤ a.1 ∧ a.1 + a.2 ≤ kernelBase + size ∧ a.1 % 4096 = 0 :=
  h.inside a (List.mem_of_getElem? ha)

theorem LoaderMaps.address_mem {x : Slot} (hx : x.Within) :
    kernelBase ≤ B.address x ∧ B.address x + 8 ≤ kernelBase + size := by
  obtain ⟨hlow, hhigh, -⟩ := h.array_mem (B.array_eq x)
  have hoffset := B.offset_le hx
  have haddress := B.address_eq x
  omega

/-- Elements are words of their own. -/
theorem LoaderMaps.address_apart {x y : Slot} (hx : x.Within) (hy : y.Within) (hne : x ≠ y) :
    Apart (B.address x) 8 (B.address y) 8 := by
  have hoffset := B.offset_le hx
  have hoffset' := B.offset_le hy
  rw [B.address_eq x, B.address_eq y]
  by_cases harray : x.array = y.array
  · have hblock : B.block x = B.block y := by
      have heq := B.array_eq x
      rw [harray, B.array_eq y] at heq
      exact (Option.some.inj heq).symm
    have happart := Slot.offset_apart hx hy harray hne
    unfold Apart at happart ⊢
    rw [hblock]
    omega
  · have happart : Apart (B.block x).1 (B.block x).2 (B.block y).1 (B.block y).2 := by
      obtain ⟨hlt, hgetx⟩ := List.getElem?_eq_some_iff.mp (B.array_eq x)
      obtain ⟨hlt', hgety⟩ := List.getElem?_eq_some_iff.mp (B.array_eq y)
      have hpairs := List.pairwise_iff_getElem.mp h.apart
      rcases Nat.lt_or_gt_of_ne harray with hless | hless
      · rw [← hgetx, ← hgety]
        exact hpairs _ _ hlt hlt' hless
      · rw [← hgetx, ← hgety]
        exact (hpairs _ _ hlt' hlt hless).symm
    unfold Apart at happart ⊢
    omega

theorem LoaderMaps.translate_address {x : Slot} (hx : x.Within) {k : ℕ} (hk : k < 8) :
    B.translate (B.address x + k) = B.place pa x + k := by
  obtain ⟨hlow, hhigh⟩ := h.address_mem hx
  have heq : B.address x + k = kernelBase + (B.address x - kernelBase + k) := by omega
  rw [heq, h.image _ (by omega)]
  exact (Nat.add_assoc pa _ k).symm

theorem LoaderMaps.translate_element {x : Slot} (hx : x.Within) :
    B.translate (B.address x) = B.place pa x := by
  have htranslate := h.translate_address hx (k := 0) (by decide)
  rwa [Nat.add_zero, Nat.add_zero] at htranslate

theorem LoaderMaps.read_eq {x : Slot} (hx : x.Within) (s : State) :
    B.read s x = s.mem.load64 (B.place pa x) := by
  have hload := load_translate s.mem B.translate fun _ hk => h.translate_address hx hk
  exact hload

theorem LoaderMaps.place_apart {x y : Slot} (hx : x.Within) (hy : y.Within) (hne : x ≠ y) :
    Apart (B.place pa x) 8 (B.place pa y) 8 := by
  have happart := h.address_apart hx hy hne
  obtain ⟨hlow, -⟩ := h.address_mem hx
  obtain ⟨hlow', -⟩ := h.address_mem hy
  unfold Apart place at *
  omega

/-- **An assignment** changes one element. -/
theorem LoaderMaps.read_assign {x y : Slot} (hx : x.Within) (hy : y.Within) (s : State) {v : ℕ}
    (hv : v < 2 ^ 64) : B.read (B.assign s x v) y = if y = x then v else B.read s y := by
  rw [h.read_eq hy, h.read_eq hy, assign, h.translate_element hx]
  split_ifs with heq
  · rw [heq]
    exact load64_store64_same_of_lt hv
  · exact load64_store64_of_apart (h.place_apart hx hy (Ne.symm heq))

theorem LoaderMaps.assign_outside {x : Slot} (hx : x.Within) {v : ℕ}
    (hs : SameOutside pa size s₀ s) : SameOutside pa size s₀ (B.assign s x v) := by
  intro p hp
  obtain ⟨hlow, hhigh⟩ := h.address_mem hx
  rw [← hs p hp, assign, h.translate_element hx]
  apply store64_apply_of_not_mem
  unfold InImage at hp
  unfold place
  omega

theorem LoaderMaps.assignAll_outside {xs : List Slot} (hxs : ∀ x ∈ xs, x.Within)
    (hs : SameOutside pa size s₀ s) : SameOutside pa size s₀ (B.assignAll pa xs s) := by
  induction xs generalizing s with
  | nil => exact hs
  | cons x xs ih =>
    obtain ⟨hx, hxs⟩ := List.forall_mem_cons.mp hxs
    exact ih hxs (h.assign_outside hx hs)

/-- Where the loader's tables say an array or a row of one is. -/
theorem LoaderMaps.find_address (hs : SameOutside pa size s₀ s) {x : Slot} (hx : x.Within)
    (haligned : B.address x % 4096 = 0) : B.find s (B.address x) = B.place pa x := by
  obtain ⟨hlow, hhigh⟩ := h.address_mem hx
  have heq : B.address x = kernelBase + (B.address x - kernelBase) := by omega
  have hpage : (B.address x - kernelBase) % 4096 = 0 := by
    have hbase := kernelBase_eq
    omega
  have hfind := h.pages s hs (B.address x - kernelBase) (by omega)
  rwa [← heq, hpage, Nat.sub_zero] at hfind

/-! ## The loops -/

/-- A loop whose steps are these as long as nothing outside of the image changes. -/
theorem LoaderMaps.foldl_eq {l : List ℕ} {f : State → ℕ → State} {xs : ℕ → List Slot}
    (hxs : ∀ k ∈ l, ∀ x ∈ xs k, x.Within)
    (hstep : ∀ s, SameOutside pa size s₀ s → ∀ k ∈ l, f s k = B.assignAll pa (xs k) s)
    (hs : SameOutside pa size s₀ s) : l.foldl f s = B.assignAll pa (l.flatMap xs) s := by
  induction l generalizing s with
  | nil => rfl
  | cons k l ih =>
    obtain ⟨hx, hxs⟩ := List.forall_mem_cons.mp hxs
    have hnext := h.assignAll_outside hx hs
    rw [List.foldl_cons, hstep s hs k (List.mem_cons_self ..), List.flatMap_cons,
      assignAll_append]
    exact ih hxs (fun s hs k hk => hstep s hs k (List.mem_cons_of_mem _ hk)) hnext

/-- Tables begin at pages. -/
theorem LoaderMaps.find_table (hs : SameOutside pa size s₀ s) {x : Slot} (hx : x.Within)
    (htable : x.offset % 4096 = 0) : B.find s (B.address x) = B.place pa x := by
  obtain ⟨-, -, hpage⟩ := h.array_mem (B.array_eq x)
  apply h.find_address hs hx
  rw [B.address_eq]
  omega

theorem LoaderMaps.fillKernelLpd_eq (hs : SameOutside pa size s₀ s) :
    B.fillKernelLpd pa s = B.assignAll pa kernelSlots s := by
  apply h.foldl_eq _ _ hs
  · intro kpd hkpd x hx
    rw [List.mem_range] at hkpd
    simp only [List.mem_cons, List.mem_map, List.mem_range] at hx
    obtain rfl | ⟨kpt, hkpt, rfl⟩ := hx
    · exact hkpd
    · exact ⟨hkpd, hkpt⟩
  · intro s hs kpd hkpd
    have hrow : Slot.Within (.kernelPt kpd 0) := ⟨List.mem_range.mp hkpd, by decide⟩
    dsimp only
    rw [h.find_table hs hrow (by simp only [Slot.offset]; omega), fillKernelPt_eq, assignAll_cons, value]

theorem LoaderMaps.fillHhdmLpd_eq (hs : SameOutside pa size s₀ s) {hpdp : ℕ} (hhpdp : hpdp < 4) :
    B.fillHhdmLpd hpdp s = B.assignAll pa ((List.range 512).flatMap fun hpd =>
      .hhdmLpd hpdp hpd :: (List.range 1024).map (.hhdmPt hpdp hpd)) s := by
  apply h.foldl_eq _ _ hs
  · intro hpd hhpd x hx
    rw [List.mem_range] at hhpd
    simp only [List.mem_cons, List.mem_map, List.mem_range] at hx
    obtain rfl | ⟨hpt, hhpt, rfl⟩ := hx
    · exact ⟨hhpdp, hhpd⟩
    · exact ⟨hhpdp, hhpd, hhpt⟩
  · intro s hs hpd hhpd
    have hrow : Slot.Within (.hhdmPt hpdp hpd 0) := ⟨hhpdp, List.mem_range.mp hhpd, by decide⟩
    dsimp only
    rw [h.find_table hs hrow (by simp only [Slot.offset]; omega), fillHhdmPt_eq, assignAll_cons, value]

theorem LoaderMaps.fillHhdmHpd_eq (hs : SameOutside pa size s₀ s) :
    B.fillHhdmHpd s = B.assignAll pa hhdmSlots s := by
  apply h.foldl_eq _ _ hs
  · intro hpdp hhpdp x hx
    rw [List.mem_range] at hhpdp
    simp only [List.mem_cons, List.mem_flatMap, List.mem_map, List.mem_range] at hx
    obtain rfl | ⟨hpd, hhpd, rfl | ⟨hpt, hhpt, rfl⟩⟩ := hx
    · exact Nat.lt_trans hhpdp (by decide)
    · exact ⟨hhpdp, hhpd⟩
    · exact ⟨hhpdp, hhpd, hhpt⟩
  · intro s hs hpdp hhpdp
    rw [List.mem_range] at hhpdp
    have htable : Slot.Within (.hhdmLpd hpdp 0) := ⟨hhpdp, by decide⟩
    have hslot : Slot.Within (.hhdmHpd hpdp) := Nat.lt_trans hhpdp (by decide)
    dsimp only
    rw [h.find_table hs htable (by simp only [Slot.offset]; omega),
      h.fillHhdmLpd_eq (h.assign_outside hslot hs) hhpdp, assignAll_cons, value]

/-- Where the loader's tables say the arrays are. -/
theorem LoaderMaps.find_arrays (hs : SameOutside pa size s₀ s) :
    B.find s B.platform.kernelPml4 = B.place pa (.kernelPml4 0) ∧
      B.find s B.kernelHpd = B.place pa (.kernelHpd 0) ∧
      B.find s B.kernelLpd = B.place pa (.kernelLpd 0) ∧
      B.find s B.hhdmHpd = B.place pa (.hhdmHpd 0) := by
  have hpml4 := h.find_table (x := .kernelPml4 0) hs (by decide) (by decide)
  have hhpd := h.find_table (x := .kernelHpd 0) hs (by decide) (by decide)
  have hlpd := h.find_table (x := .kernelLpd 0) hs (by decide) (by decide)
  have hhhdm := h.find_table (x := .hhdmHpd 0) hs (by decide) (by decide)
  refine ⟨?_, ?_, ?_, ?_⟩
  · rw [address, Nat.mul_zero, Nat.add_zero] at hpml4
    exact hpml4
  · rw [address, Nat.mul_zero, Nat.add_zero] at hhpd
    exact hhpd
  · rw [address, Nat.mul_zero, Nat.add_zero] at hlpd
    exact hlpd
  · rw [address, Nat.mul_zero, Nat.add_zero] at hhhdm
    exact hhhdm

theorem LoaderMaps.find_base : B.find s₀ kernelBase = pa := by
  obtain ⟨hlow, hhigh⟩ := h.address_mem (x := .kernelPml4 0) (by decide)
  have hpage := h.pages s₀ (fun _ _ => rfl) 0 (by omega)
  rwa [Nat.add_zero, Nat.zero_mod, Nat.sub_zero, Nat.add_zero] at hpage

/-- **All that is written**: the values above, one after the other, and then the frames. -/
theorem LoaderMaps.kernelInitializePaging_eq (memmap : Option (List MemmapEntry)) :
    B.kernelInitializePaging memmap s₀ =
      (kernelInitializeMemStack memmap (B.assignAll pa written s₀)).map
        fun s => (B.place pa (.kernelPml4 0), s) := by
  -- each state is in reach of the loader's tables, as nothing outside of the image changes
  have hsame₀ : SameOutside pa size s₀ s₀ := fun _ _ => rfl
  obtain ⟨-, hhpd, -, -⟩ := h.find_arrays hsame₀
  have hsame₁ := h.assign_outside (x := .kernelPml4 511) (v := B.place pa (.kernelHpd 0) ||| 3)
    (by decide) hsame₀
  obtain ⟨-, -, hlpd, -⟩ := h.find_arrays hsame₁
  have hsame₂ := h.assign_outside (x := .kernelHpd 510) (v := B.place pa (.kernelLpd 0) ||| 3)
    (by decide) hsame₁
  have hkernel := h.fillKernelLpd_eq hsame₂
  have hwithin₃ : ∀ x ∈ kernelSlots, x.Within := by
    intro x hx
    apply within_of_mem_written
    simp only [written, List.mem_append]
    exact .inl (.inr hx)
  have hsame₃ := h.assignAll_outside hwithin₃ hsame₂
  obtain ⟨-, -, -, hhhdm⟩ := h.find_arrays hsame₃
  have hsame₄ := h.assign_outside (x := .kernelPml4 256) (v := B.place pa (.hhdmHpd 0) ||| 7)
    (by decide) hsame₃
  have hhhdms := h.fillHhdmHpd_eq hsame₄
  have hwithin₅ : ∀ x ∈ hhdmSlots, x.Within := by
    intro x hx
    apply within_of_mem_written
    simp only [written, List.mem_append, List.mem_cons]
    exact .inr (.inr hx)
  have hsame₅ := h.assignAll_outside hwithin₅ hsame₄
  obtain ⟨hpml4, -⟩ := h.find_arrays hsame₅
  have hwritten : B.assignAll pa written s₀ = B.assignAll pa hhdmSlots
      (B.assign (B.assignAll pa kernelSlots
        (B.assign (B.assign s₀ (.kernelPml4 511) (B.place pa (.kernelHpd 0) ||| 3))
          (.kernelHpd 510) (B.place pa (.kernelLpd 0) ||| 3)))
        (.kernelPml4 256) (B.place pa (.hhdmHpd 0) ||| 7)) := by
    rw [written, assignAll_append, assignAll_append, assignAll_cons, assignAll_cons, assignAll_cons,
      assignAll_nil]
    simp only [value, if_true, Nat.reduceEqDiff, if_false]
  simp only [kernelInitializePaging, h.find_base, hhpd, hlpd, hkernel, hhhdm, hhhdms, hpml4, hwritten]

/-! ## The tables afterwards -/

theorem LoaderMaps.place_lt {x : Slot} (hx : x.Within) : B.place pa x < 2 ^ 47 := by
  obtain ⟨hlow, hhigh⟩ := h.address_mem hx
  have hbelow := h.below
  unfold place
  omega

theorem LoaderMaps.value_lt {x : Slot} (hx : x ∈ written) : B.value pa x < 2 ^ 64 := by
  have hplace {y : Slot} (hy : y.Within) : B.place pa y < 2 ^ 64 := by
    have hlt := h.place_lt hy
    omega
  have hwithin := within_of_mem_written hx
  rw [mem_written] at hx
  cases x with
  | kernelPml4 i =>
    simp only [value]
    split_ifs
    · exact Nat.or_lt_two_pow (hplace (by decide)) (by decide)
    · exact Nat.or_lt_two_pow (hplace (by decide)) (by decide)
  | kernelHpd i => exact Nat.or_lt_two_pow (hplace (by decide)) (by decide)
  | kernelLpd kpd => exact Nat.or_lt_two_pow (hplace ⟨hx, by decide⟩) (by decide)
  | kernelPt kpd kpt => exact Nat.or_lt_two_pow (Nat.mod_lt _ (by decide)) (by decide)
  | hhdmHpd hpdp => exact Nat.or_lt_two_pow (hplace ⟨hx, by decide⟩) (by decide)
  | hhdmLpd hpdp hpd => exact Nat.or_lt_two_pow (hplace ⟨hx.1, hx.2, by decide⟩) (by decide)
  | hhdmPt hpdp hpd hpt =>
    apply Nat.or_lt_two_pow _ (by decide)
    simp only [Assigned] at hx
    simp only [Nat.shiftLeft_eq]
    omega

theorem LoaderMaps.read_assignAll {xs : List Slot} (hxs : ∀ x ∈ xs, x ∈ written) {y : Slot}
    (hy : y.Within) (s : State) :
    B.read (B.assignAll pa xs s) y = if y ∈ xs then B.value pa y else B.read s y := by
  induction xs generalizing s with
  | nil => simp [assignAll_nil]
  | cons x xs ih =>
    obtain ⟨hx, hxs⟩ := List.forall_mem_cons.mp hxs
    rw [assignAll_cons, ih hxs, h.read_assign (within_of_mem_written hx) hy s (h.value_lt hx)]
    by_cases hmem : y ∈ xs
    · simp [hmem]
    · by_cases heq : y = x
      · simp [heq]
      · simp [hmem, heq]

/-- **The tables** after `KernelInitializePaging`. -/
theorem LoaderMaps.tables {memmap : Option (List MemmapEntry)} {cr3 : ℕ}
    (hinit : B.kernelInitializePaging memmap s₀ = .ok (cr3, s')) :
    B.Tables pa s' ∧ cr3 = B.place pa (.kernelPml4 0) := by
  rw [h.kernelInitializePaging_eq] at hinit
  cases hstack : kernelInitializeMemStack memmap (B.assignAll pa written s₀) with
  | error f =>
    rw [hstack] at hinit
    cases hinit
  | ok s =>
    rw [hstack] at hinit
    cases hinit
    refine ⟨fun x hx _ => ?_, rfl⟩
    have hread : B.read s' x = B.read (B.assignAll pa written s₀) x := by
      simp only [read, seen, mem_of_kernelInitializeMemStack hstack]
    rw [hread, h.read_assignAll (fun _ => id) hx, read, h.zero x hx]

/-! ## A walk -/

theorem LoaderMaps.aligned : pa % 4096 = 0 := by
  have hbase := h.find_base
  obtain ⟨hlow, hhigh⟩ := h.address_mem (x := .kernelPml4 0) (by decide)
  have hbelow := h.below
  unfold find kernelGetPhysicalAddress at hbase
  dsimp only at hbase
  split_ifs at hbase
  · omega
  · omega
  · omega
  · omega
  · rw [← hbase]
    exact land_pageMask_mod _

theorem LoaderMaps.place_mod {x : Slot} (htable : x.offset % 4096 = 0) :
    B.place pa x % 4096 = 0 := by
  obtain ⟨hlow, -, hpage⟩ := h.array_mem (B.array_eq x)
  have hbase := kernelBase_eq
  have haligned := h.aligned
  rw [place, B.address_eq]
  omega

/-- **A table** is read at the HHDM offset as it is written in the image. -/
theorem LoaderMaps.entry_table (x y : Slot) (i : ℕ) {flags : ℕ} (hx : x.Within) (hy : y.Within)
    (htable : x.offset % 4096 = 0) (haddress : B.address y = B.address x + 8 * i)
    (hflags : flags < 512) (s : State) :
    entry (B.seen s).mem (addTable B.platform (B.place pa x ||| flags)) i = B.read s y := by
  have hmod := h.place_mod htable
  have hlt := h.place_lt hx
  obtain ⟨hlow, -⟩ := h.address_mem hx
  obtain ⟨-, hhigh⟩ := h.address_mem hy
  have hplace : B.place pa y = B.place pa x + 8 * i := by
    unfold place
    omega
  have hmask : (B.place pa x ||| flags) &&& tableMask = B.place pa x :=
    land_tableMask (by omega) (by omega) hflags
  have hoffset := h.offset
  rw [h.read_eq hy, hplace, addTable, hmask, entry, Nat.mod_eq_of_lt (by omega)]
  refine load_translate s.mem B.translate fun k hk => ?_
  have hframe := h.frames (B.address x - kernelBase + 8 * i + k) (by omega)
  unfold place
  rw [show pa + (B.address x - kernelBase) + B.platform.hhdmOffset + 8 * i + k =
    B.platform.hhdmOffset + (pa + (B.address x - kernelBase + 8 * i + k)) by omega, hframe]
  omega

/-- An entry of a table that names the next one. -/
theorem LoaderMaps.present_place {x : Slot} {flags : ℕ} (htable : x.offset % 4096 = 0)
    (hflags : Flags flags) : present (B.place pa x ||| flags) = true := by
  have hmod := h.place_mod htable
  exact present_lor (by omega) hflags

/-- What a walk comes to, by the indices of the address. -/
def bootWalk (pa v : ℕ) : ℕ :=
  if pml4Index v = 511 then
    if hpdIndex v = 510 then pa + (lpdIndex v <<< 21) + (ptIndex v <<< 12) else 2 ^ 64 - 3
  else if pml4Index v = 256 then
    if hpdIndex v < 4 then (hpdIndex v <<< 30) + (lpdIndex v <<< 21) + (ptIndex v <<< 12)
    else 2 ^ 64 - 3
  else 2 ^ 64 - 4

/-- The part of a walk below `kernel_hpd`. -/
theorem LoaderMaps.walk_kernel (ht : B.Tables pa s) {v : ℕ} (h511 : pml4Index v = 511) :
    B.walk s v = if hpdIndex v = 510 then pa + (lpdIndex v <<< 21) + (ptIndex v <<< 12)
      else 2 ^ 64 - 3 := by
  have hlpdIndex := lpdIndex_lt v
  have hptIndex := ptIndex_lt v
  have hflags : Flags 3 := ⟨by decide, by decide⟩
  have htable : (Slot.kernelPt (lpdIndex v) 0).offset % 4096 = 0 := by
    simp only [Slot.offset]
    omega
  have hroot : entry (B.seen s).mem B.platform.kernelPml4 (pml4Index v) =
      B.place pa (.kernelHpd 0) ||| 3 := by
    have hread := ht.value (x := .kernelPml4 511) (mem_written.mpr (Or.inl rfl)) id
    rw [value, if_pos rfl] at hread
    rw [h511]
    exact hread
  have hhpd := h.entry_table (.kernelHpd 0) (.kernelHpd (hpdIndex v)) (hpdIndex v) (by decide) (hpdIndex_lt v)
    (by decide) (by simp [address]) hflags.lt s
  split_ifs with h510
  · rw [ht.value (x := .kernelHpd (hpdIndex v)) (mem_written.mpr h510) id] at hhpd
    have hlpd := h.entry_table (.kernelLpd 0) (.kernelLpd (lpdIndex v)) (lpdIndex v) (by decide) hlpdIndex
      (by decide) (by simp [address]) hflags.lt s
    rw [ht.value (x := .kernelLpd (lpdIndex v)) (mem_written.mpr hlpdIndex) id] at hlpd
    -- the index stays in the lower half of the row
    have hpt := h.entry_table (.kernelPt (lpdIndex v) 0) (.kernelPt (lpdIndex v) (ptIndex v))
      (ptIndex v) ⟨hlpdIndex, by decide⟩ ⟨hlpdIndex, by omega⟩ htable (by simp [address]) hflags.lt s
    rw [ht.value (x := .kernelPt (lpdIndex v) (ptIndex v)) (mem_written.mpr ⟨hlpdIndex, by omega⟩)
      (Nat.not_le_of_lt hptIndex)] at hpt
    have haligned := h.aligned
    have hbelow := h.below
    have hpage : (pa + (lpdIndex v <<< 21) + (ptIndex v <<< 12)) % 2 ^ 64 =
        pa + (lpdIndex v <<< 21) + (ptIndex v <<< 12) := by
      simp only [Nat.shiftLeft_eq]
      omega
    have hmod : (pa + (lpdIndex v <<< 21) + (ptIndex v <<< 12)) % 4096 = 0 ∧
        pa + (lpdIndex v <<< 21) + (ptIndex v <<< 12) < 2 ^ 63 := by
      simp only [Nat.shiftLeft_eq]
      omega
    simp only [value] at hhpd hlpd hpt
    rw [hpage] at hpt
    rw [walk, page_of_entries hroot hhpd hlpd hpt ⟨h.present_place (by decide) hflags,
      h.present_place (by decide) hflags, h.present_place htable hflags,
      present_lor (by omega) hflags⟩]
    exact land_pageMask hmod.1 hmod.2 hflags.lt
  · rw [ht.zero (x := .kernelHpd (hpdIndex v)) (hpdIndex_lt v) id fun hmem =>
      h510 (mem_written.mp hmem)] at hhpd
    exact walk_of_second_absent hroot hhpd (h.present_place (by decide) hflags)

/-- The part of a walk below `hhdm_hpd`. -/
theorem LoaderMaps.walk_hhdm (ht : B.Tables pa s) {v : ℕ} (h256 : pml4Index v = 256) :
    B.walk s v = if hpdIndex v < 4 then
        (hpdIndex v <<< 30) + (lpdIndex v <<< 21) + (ptIndex v <<< 12)
      else 2 ^ 64 - 3 := by
  have hlpdIndex := lpdIndex_lt v
  have hptIndex := ptIndex_lt v
  have hflags : Flags 7 := ⟨by decide, by decide⟩
  have hroot : entry (B.seen s).mem B.platform.kernelPml4 (pml4Index v) =
      B.place pa (.hhdmHpd 0) ||| 7 := by
    have hread := ht.value (x := .kernelPml4 256) (mem_written.mpr (Or.inr rfl)) id
    rw [value, if_neg (by decide)] at hread
    rw [h256]
    exact hread
  have hhpd := h.entry_table (.hhdmHpd 0) (.hhdmHpd (hpdIndex v)) (hpdIndex v) (by decide)
    (hpdIndex_lt v) (by decide) (by simp [address]) hflags.lt s
  split_ifs with hfour
  · have hdirectory : (Slot.hhdmLpd (hpdIndex v) 0).offset % 4096 = 0 := by
      simp only [Slot.offset]
      omega
    have htable : (Slot.hhdmPt (hpdIndex v) (lpdIndex v) 0).offset % 4096 = 0 := by
      simp only [Slot.offset]
      omega
    rw [ht.value (x := .hhdmHpd (hpdIndex v)) (mem_written.mpr hfour) id] at hhpd
    have hlpd := h.entry_table (.hhdmLpd (hpdIndex v) 0) (.hhdmLpd (hpdIndex v) (lpdIndex v))
      (lpdIndex v) ⟨hfour, by decide⟩ ⟨hfour, hlpdIndex⟩ hdirectory (by simp [address]) hflags.lt s
    rw [ht.value (x := .hhdmLpd (hpdIndex v) (lpdIndex v)) (mem_written.mpr ⟨hfour, hlpdIndex⟩) id]
      at hlpd
    -- the index stays in the lower half of the row
    have hpt := h.entry_table (.hhdmPt (hpdIndex v) (lpdIndex v) 0)
      (.hhdmPt (hpdIndex v) (lpdIndex v) (ptIndex v)) (ptIndex v) ⟨hfour, hlpdIndex, by decide⟩
      ⟨hfour, hlpdIndex, by omega⟩ htable (by simp [address]) hflags.lt s
    rw [ht.value (x := .hhdmPt (hpdIndex v) (lpdIndex v) (ptIndex v))
      (mem_written.mpr ⟨hfour, hlpdIndex, by omega⟩) (Nat.not_le_of_lt hptIndex)] at hpt
    have hmod : ((hpdIndex v <<< 30) + (lpdIndex v <<< 21) + (ptIndex v <<< 12)) % 4096 = 0 ∧
        (hpdIndex v <<< 30) + (lpdIndex v <<< 21) + (ptIndex v <<< 12) < 2 ^ 63 := by
      simp only [Nat.shiftLeft_eq]
      omega
    simp only [value] at hhpd hlpd hpt
    rw [walk, page_of_entries hroot hhpd hlpd hpt ⟨h.present_place (by decide) hflags,
      h.present_place hdirectory hflags, h.present_place htable hflags,
      present_lor (by omega) hflags⟩]
    exact land_pageMask hmod.1 hmod.2 hflags.lt
  · rw [ht.zero (x := .hhdmHpd (hpdIndex v)) (hpdIndex_lt v) id fun hmem =>
      hfour (mem_written.mp hmem)] at hhpd
    exact walk_of_second_absent hroot hhpd (h.present_place (by decide) hflags)

/-- **A walk** from `kernel_pml4`. -/
theorem LoaderMaps.walk_eq (ht : B.Tables pa s) (v : ℕ) : B.walk s v = bootWalk pa v := by
  rw [bootWalk]
  split_ifs with h511 h510 h256 hfour
  · rw [h.walk_kernel ht h511, if_pos h510]
  · rw [h.walk_kernel ht h511, if_neg h510]
  · rw [h.walk_hhdm ht h256, if_pos hfour]
  · rw [h.walk_hhdm ht h256, if_neg hfour]
  · have hroot : entry (B.seen s).mem B.platform.kernelPml4 (pml4Index v) = 0 :=
      ht.zero (x := .kernelPml4 (pml4Index v)) (pml4Index_lt v) id fun hmem =>
        (mem_written.mp hmem).elim h511 h256
    rw [walk, kernelGetPhysicalAddress]
    simp [hroot, present_zero]

/-- Other contents of the second halves leave the tables. -/
theorem LoaderMaps.tables_congr (ht : B.Tables pa s)
    (hsame : ∀ p, (∀ x, x.Within → Upper x →
      ¬ (B.translate (B.address x) ≤ p ∧ p < B.translate (B.address x) + 8)) → s'.mem p = s.mem p) :
    B.Tables pa s' := by
  intro y hy hlow
  rw [← ht y hy hlow, h.read_eq hy, h.read_eq hy]
  apply load64_congr
  intro p hp hp'
  apply hsame
  intro x hx hup
  have hne : x ≠ y := fun heq => hlow (heq ▸ hup)
  have happart := h.place_apart hx hy hne
  rw [h.translate_element hx]
  unfold Apart at happart
  omega

end Image

/-! ## Addresses -/

/-- Addresses that are no canonical ones are walked like one. -/
theorem bootWalk_canon (pa v : ℕ) : bootWalk pa (canon v) = bootWalk pa v := by
  obtain ⟨h₁, h₂, h₃, h₄⟩ := indices_canon v
  simp only [bootWalk, h₁, h₂, h₃, h₄]

theorem bootWalk_hhdm (pa : ℕ) {x : ℕ} (hx : x < 2 ^ 32) :
    bootWalk pa (0xFFFF800000000000 + x) = x - x % 4096 := by
  simp only [bootWalk, pml4Index, hpdIndex, lpdIndex, ptIndex, land_511, Nat.shiftRight_eq_div_pow,
    Nat.shiftLeft_eq]
  rw [if_neg (by omega), if_pos (by omega), if_pos (by omega)]
  omega

theorem bootWalk_kernel (pa : ℕ) {y : ℕ} (hy : y < 2 ^ 30) :
    bootWalk pa (kernelBase + y) = pa + (y - y % 4096) := by
  rw [kernelBase_eq]
  simp only [bootWalk, pml4Index, hpdIndex, lpdIndex, ptIndex, land_511, Nat.shiftRight_eq_div_pow,
    Nat.shiftLeft_eq]
  rw [if_pos (by omega), if_pos (by omega)]
  omega

theorem bootWalk_other (pa : ℕ) {v : ℕ} (hv : Canonical v)
    (hhhdm : ∀ x < 2 ^ 32, v ≠ 0xFFFF800000000000 + x) (hkernel : ∀ y < 2 ^ 30, v ≠ kernelBase + y) :
    2 ^ 64 - 4 ≤ bootWalk pa v := by
  have hbase := kernelBase_eq
  have houtside : ¬ (0xFFFF800000000000 ≤ v ∧ v < 0xFFFF800000000000 + 2 ^ 32) := fun hin =>
    hhhdm (v - 0xFFFF800000000000) (by omega) (by omega)
  have houtside' : ¬ (2 ^ 64 - 2 ^ 31 ≤ v ∧ v < 2 ^ 64 - 2 ^ 30) := fun hin =>
    hkernel (v - (2 ^ 64 - 2 ^ 31)) (by omega) (by omega)
  unfold Canonical at hv
  simp only [bootWalk, pml4Index, hpdIndex, lpdIndex, ptIndex, land_511, Nat.shiftRight_eq_div_pow,
    Nat.shiftLeft_eq]
  split_ifs with h₁ h₂ h₃ h₄ <;> omega

/-- **The page tables of the kernel**: after `KernelInitializePaging` a walk from `kernel_pml4` maps
4 GiB of physical memory at the HHDM offset and 1 GiB from the begin of the image, and no other
canonical address; the other 64-bit numbers are walked like canonical addresses. What is in the second
halves of the rows of the last tables makes no difference. -/
theorem kernelInitializePaging_walk (h : B.LoaderMaps pa size s₀)
    {memmap : Option (List MemmapEntry)} {cr3 : ℕ}
    (hinit : B.kernelInitializePaging memmap s₀ = .ok (cr3, s)) :
    B.find s₀ kernelBase = pa ∧ cr3 = B.translate B.platform.kernelPml4 ∧
    (∀ x < 2 ^ 32, B.walk s (0xFFFF800000000000 + x) = x - x % 4096) ∧
    (∀ y < 2 ^ 30, B.walk s (kernelBase + y) = pa + (y - y % 4096)) ∧
    (∀ v, Canonical v → (∀ x < 2 ^ 32, v ≠ 0xFFFF800000000000 + x) →
      (∀ y < 2 ^ 30, v ≠ kernelBase + y) → 2 ^ 64 - 4 ≤ B.walk s v) ∧
    (∀ v, B.walk s v = B.walk s (canon v)) ∧
    (∀ s' : State, (∀ p, (∀ x, x.Within → Upper x →
        ¬ (B.translate (B.address x) ≤ p ∧ p < B.translate (B.address x) + 8)) →
        s'.mem p = s.mem p) →
      ∀ v, B.walk s' v = B.walk s v) := by
  obtain ⟨ht, rfl⟩ := h.tables hinit
  refine ⟨h.find_base, ?_, fun x hx => ?_, fun y hy => ?_, fun v hv hhhdm hkernel => ?_, fun v => ?_,
    fun s' hsame v => ?_⟩
  · exact (h.translate_element (x := .kernelPml4 0) (by decide)).symm
  · rw [h.walk_eq ht]
    exact bootWalk_hhdm pa hx
  · rw [h.walk_eq ht]
    exact bootWalk_kernel pa hy
  · rw [h.walk_eq ht]
    exact bootWalk_other pa hv hhhdm hkernel
  · rw [h.walk_eq ht, h.walk_eq ht, bootWalk_canon]
  · rw [h.walk_eq ht, h.walk_eq (h.tables_congr ht hsame)]

/-! ## A small loader -/

/-- An image at 256 MiB. -/
def smallBoot : Boot where
  platform := bootPlatform
  cr3 := 0x100000
  translate a :=
    if 0xFFFFFFFF80000000 ≤ a then 0x10000000 + (a - 0xFFFFFFFF80000000) else a - 0xFFFF800000000000
  kernelHpd := 0xFFFFFFFF80201000
  kernelLpd := 0xFFFFFFFF80202000
  kernelPt := 0xFFFFFFFF80400000
  hhdmHpd := 0xFFFFFFFF80203000
  hhdmLpd := 0xFFFFFFFF80204000
  hhdmPt := 0xFFFFFFFF80800000

/-- The words of the loader's tables, one table at each of the three upper levels. -/
def loaderWord (a : ℕ) : ℕ :=
  if a = 0x100FF8 then 0x101000 ||| 3
  else if a = 0x101FF0 then 0x102000 ||| 3
  else if 0x102000 ≤ a ∧ a < 0x103000 then 0x200000 + (a - 0x102000) / 8 * 0x1000 ||| 3
  else if 0x200000 ≤ a ∧ a < 0x400000 then 0x10000000 + (a - 0x200000) / 8 * 0x1000 ||| 3
  else 0

def loaderState : State := ⟨Memory.ofWords loaderWord, fun _ => 0, 0⟩

theorem loaderWord_lt (a : ℕ) : loaderWord a < 2 ^ 64 := by
  unfold loaderWord
  split_ifs
  · decide
  · decide
  · exact Nat.or_lt_two_pow (by omega) (by decide)
  · exact Nat.or_lt_two_pow (by omega) (by decide)
  · decide

/-- The loader's tables at the HHDM offset, whatever the image holds. -/
theorem entry_loader {s : State} (hs : SameOutside 0x10000000 0x2000000 loaderState s) {a i : ℕ}
    (ha : a < 0x300000) (hi : i < 512) (hmod : a % 8 = 0) :
    entry (smallBoot.seen s).mem (0xFFFF800000000000 + a) i = loaderWord (a + 8 * i) := by
  have htranslate : ∀ k < 8, smallBoot.translate (0xFFFF800000000000 + a + 8 * i + k) =
      a + 8 * i + k := by
    intro k hk
    simp only [smallBoot]
    rw [if_neg (by omega)]
    omega
  have hload : entry (smallBoot.seen s).mem (0xFFFF800000000000 + a) i = s.mem.load64 (a + 8 * i) :=
    load_translate s.mem smallBoot.translate htranslate
  have hword : (ofWords loaderWord).load64 (a + 8 * i) = loaderWord (a + 8 * i) :=
    load64_ofWords (by omega) (loaderWord_lt _)
  rw [hload, ← hword]
  apply load64_congr
  intro p hp hp'
  apply hs
  unfold InImage
  omega

/-- They map the image page by page. -/
theorem find_loader {s : State} (hs : SameOutside 0x10000000 0x2000000 loaderState s) {y : ℕ}
    (hy : y < 0x2000000) : smallBoot.find s (kernelBase + y) = 0x10000000 + (y - y % 4096) := by
  have hindices : pml4Index (kernelBase + y) = 511 ∧ hpdIndex (kernelBase + y) = 510 ∧
      lpdIndex (kernelBase + y) = y / 0x200000 ∧ ptIndex (kernelBase + y) = y / 4096 % 512 := by
    rw [kernelBase_eq]
    simp only [pml4Index, hpdIndex, lpdIndex, ptIndex, land_511, Nat.shiftRight_eq_div_pow]
    omega
  obtain ⟨h₁, h₂, h₃, h₄⟩ := hindices
  have hflags : Flags 3 := ⟨by decide, by decide⟩
  -- the entries on the way, one for each level
  have hhpd : entry (smallBoot.seen s).mem (0xFFFF800000000000 + 0x100000)
      (pml4Index (kernelBase + y)) = 0x101000 ||| 3 := by
    rw [h₁]
    exact entry_loader hs (by decide) (by decide) (by decide)
  have hlpd : entry (smallBoot.seen s).mem (addTable bootPlatform (0x101000 ||| 3))
      (hpdIndex (kernelBase + y)) = 0x102000 ||| 3 := by
    rw [h₂]
    exact entry_loader (a := 0x101000) hs (by decide) (by decide) (by decide)
  have hpt : entry (smallBoot.seen s).mem (addTable bootPlatform (0x102000 ||| 3))
      (lpdIndex (kernelBase + y)) = 0x200000 + y / 0x200000 * 0x1000 ||| 3 := by
    have hentry := entry_loader (a := 0x102000) (i := y / 0x200000) hs (by decide) (by omega)
      (by decide)
    rw [loaderWord, if_neg (by omega), if_neg (by omega), if_pos (by omega),
      Nat.add_sub_cancel_left, Nat.mul_div_cancel_left _ (by decide)] at hentry
    rw [h₃]
    exact hentry
  have htable : addTable bootPlatform (0x200000 + y / 0x200000 * 0x1000 ||| 3) =
      0xFFFF800000000000 + (0x200000 + y / 0x200000 * 0x1000) := by
    rw [addTable, land_tableMask (by omega) (by omega) hflags.lt]
    simp only [bootPlatform]
    omega
  have hsum : 0x10000000 + (0x200000 + y / 0x200000 * 0x1000 + 8 * (y / 4096 % 512) - 0x200000) / 8 *
      0x1000 = 0x10000000 + (y - y % 4096) := by omega
  have hpage : entry (smallBoot.seen s).mem
      (addTable bootPlatform (0x200000 + y / 0x200000 * 0x1000 ||| 3))
      (ptIndex (kernelBase + y)) = 0x10000000 + (y - y % 4096) ||| 3 := by
    rw [h₄, htable, entry_loader hs (by omega) (by omega) (by omega), loaderWord,
      if_neg (by omega), if_neg (by omega), if_neg (by omega), if_pos (by omega), hsum]
  have hwalk := page_of_entries hhpd hlpd hpt hpage ⟨by decide, by decide,
    present_lor (by omega) hflags, present_lor (by omega) hflags⟩
  rw [land_pageMask (by omega) (by omega) hflags.lt] at hwalk
  exact hwalk

theorem loaderState_mem {p : ℕ} (hp : 0x400000 ≤ p) : loaderState.mem p = 0 := by
  have hword : loaderWord (p / 8 * 8) = 0 := by
    rw [loaderWord, if_neg (by omega), if_neg (by omega), if_neg (by omega), if_neg (by omega)]
  change UInt8.ofNat (loaderWord (p / 8 * 8) / 256 ^ (p % 8)) = 0
  rw [hword, Nat.zero_div]
  rfl

/-- What the boot loader is relied on for, met. -/
theorem loaderMaps_small : smallBoot.LoaderMaps 0x10000000 0x2000000 loaderState where
  offset := rfl
  below := by decide
  image y hy := by
    rw [kernelBase_eq]
    simp only [smallBoot]
    rw [if_pos (by omega)]
    omega
  frames y hy := by
    simp only [smallBoot, bootPlatform]
    rw [if_neg (by omega)]
    omega
  pages s hs y hy := find_loader hs hy
  inside := by simp [arrays, smallBoot, bootPlatform, kernelBase_eq]
  apart := by simp [arrays, smallBoot, bootPlatform, Apart]
  zero x hx := by
    have haddress : 0xFFFFFFFF80000000 ≤ smallBoot.address x := by
      cases x <;> simp only [address, smallBoot, bootPlatform] <;> omega
    apply load_eq_zero
    intro c hc _
    have htranslate : 0x400000 ≤ smallBoot.translate c := by
      simp only [smallBoot]
      rw [if_pos (by omega)]
      omega
    exact loaderState_mem htranslate

/-- It returns on an empty memory map. -/
theorem kernelInitializePaging_small : ∃ s,
    smallBoot.kernelInitializePaging (some []) loaderState = .ok (0x10200000, s) := by
  refine ⟨smallBoot.assignAll 0x10000000 written loaderState, ?_⟩
  rw [loaderMaps_small.kernelInitializePaging_eq]
  have hplace : smallBoot.place 0x10000000 (.kernelPml4 0) = 0x10200000 := by
    rw [place, kernelBase_eq]
    decide
  have hstack (s : State) : kernelInitializeMemStack (some []) s = .ok s := rfl
  rw [hplace, hstack, Except.map]

/-- A page of physical memory, and one of the image. -/
theorem walk_small : ∃ s,
    smallBoot.kernelInitializePaging (some []) loaderState = .ok (0x10200000, s) ∧
    smallBoot.walk s (0xFFFF800000000000 + 0x1234) = 0x1000 ∧
    smallBoot.walk s (kernelBase + 0x5678) = 0x10005000 := by
  obtain ⟨s, hinit⟩ := kernelInitializePaging_small
  obtain ⟨-, -, hhhdm, hkernel, -⟩ := kernelInitializePaging_walk loaderMaps_small hinit
  exact ⟨s, hinit, hhhdm 0x1234 (by decide), hkernel 0x5678 (by decide)⟩

/-- Another number that is walked to the first page. -/
theorem walk_not_canonical : ∃ s, smallBoot.LoaderMaps 0x10000000 0x2000000 loaderState ∧
    smallBoot.kernelInitializePaging (some []) loaderState = .ok (0x10200000, s) ∧
    (∀ x < 2 ^ 32, 0x800000000000 ≠ 0xFFFF800000000000 + x) ∧
    (∀ y < 2 ^ 30, 0x800000000000 ≠ kernelBase + y) ∧ smallBoot.walk s 0x800000000000 = 0 := by
  obtain ⟨s, hinit⟩ := kernelInitializePaging_small
  refine ⟨s, loaderMaps_small, hinit, fun x _ => by omega, fun y _ => ?_, ?_⟩
  · have hbase := kernelBase_eq
    omega
  · rw [loaderMaps_small.walk_eq (loaderMaps_small.tables hinit).1]
    decide

end Boot

end Cutesugar.Kernel.Mmu
