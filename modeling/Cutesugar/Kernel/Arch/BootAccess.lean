import Cutesugar.Kernel.Arch.BootTables
import Cutesugar.Kernel.Arch.Exhaustion
import Cutesugar.Kernel.Arch.SharedSlots

/-!
# What the kernel's page tables open to ring 3 (`KernelInitializePaging`)

The tables are the state that all mapping starts from: each of them is at one place, and the frames of the pool
are apart from them. The entries of the HHDM have the user bit on all levels, so that ring 3 can access the first
4 GiB of physical memory from the start, the image of the kernel and its page tables among it.

- `Slot.next`, `tableAt_boot`: the tables by the arrays they are in.
- `boot_forest`: what `KernelInitializePaging` leaves is a forest.
- `accessible_boot_iff`: the pages that are open to ring 3 then.
- `access_as_booted`: they are so in every root from then on.
-/

namespace Cutesugar.Kernel.Mmu

open Lib Lib.Memory

/-! ## The tables in the arrays -/

/-- An entry of the table that begins with an element. -/
def Slot.elem : Slot → ℕ → Slot
  | .kernelPml4 _, i => .kernelPml4 i
  | .kernelHpd _, i => .kernelHpd i
  | .kernelLpd _, i => .kernelLpd i
  | .kernelPt kpd _, i => .kernelPt kpd i
  | .hhdmHpd _, i => .hhdmHpd i
  | .hhdmLpd hpdp _, i => .hhdmLpd hpdp i
  | .hhdmPt hpdp hpd _, i => .hhdmPt hpdp hpd i

/-- The table that an element names. -/
def Slot.next : Slot → Option Slot
  | .kernelPml4 i => if i = 511 then some (.kernelHpd 0) else if i = 256 then some (.hhdmHpd 0) else none
  | .kernelHpd i => if i = 510 then some (.kernelLpd 0) else none
  | .kernelLpd kpd => some (.kernelPt kpd 0)
  | .hhdmHpd hpdp => if hpdp < 4 then some (.hhdmLpd hpdp 0) else none
  | .hhdmLpd hpdp hpd => some (.hhdmPt hpdp hpd 0)
  | .kernelPt _ _ | .hhdmPt _ _ _ => none

/-- The path to the table of an element. -/
def Slot.path : Slot → List ℕ
  | .kernelPml4 _ => []
  | .kernelHpd _ => [511]
  | .kernelLpd _ => [511, 510]
  | .kernelPt kpd _ => [511, 510, kpd]
  | .hhdmHpd _ => [256]
  | .hhdmLpd hpdp _ => [256, hpdp]
  | .hhdmPt hpdp hpd _ => [256, hpdp, hpd]

/-- The first element of a table. -/
structure Slot.Head (x : Slot) : Prop where
  within : x.Within
  first : x.elem 0 = x

variable {x y : Slot} {i : ℕ} {q : List ℕ}

theorem Slot.head_root : (Slot.kernelPml4 0).Head := ⟨by decide, rfl⟩

theorem Slot.Head.elem (h : x.Head) (hi : i < 512) : (x.elem i).Within ∧ ¬ Boot.Upper (x.elem i) := by
  have hwithin := h.within
  cases x <;> simp only [Within] at hwithin <;> 
    simp only [Slot.elem, Within, Boot.Upper, not_false_eq_true, and_true] <;> omega

theorem Slot.Head.offset_mod (h : x.Head) : x.offset % 4096 = 0 := by
  have hfirst := h.first
  cases x <;> simp only [Slot.elem, kernelPml4.injEq, kernelHpd.injEq, kernelLpd.injEq, kernelPt.injEq,
    hhdmHpd.injEq, hhdmLpd.injEq, hhdmPt.injEq, true_and] at hfirst <;> subst hfirst <;>
    simp only [offset] <;> omega

theorem Slot.Head.next (h : x.Head) (hi : i < 512) (hy : (x.elem i).next = some y) :
    y.Head ∧ y.path = x.path ++ [i] := by
  have hwithin := h.within
  cases x <;> simp only [Slot.elem, Slot.next] at hy <;> simp only [Within] at hwithin <;>
    (try split_ifs at hy) <;> simp only [Option.some.injEq, reduceCtorEq] at hy <;> subst hy <;>
    refine ⟨⟨?_, rfl⟩, ?_⟩ <;> simp only [Within, path, List.nil_append, List.cons_append] <;>
    first
      | rfl
      | omega
      | subst_vars; rfl

/-- The path of a table is the one it is found at. -/
theorem Slot.Head.descend (h : x.Head) (hq : ∀ i ∈ q, i < 512)
    (hy : Lib.descend (fun x i => (Slot.elem x i).next) x q = some y) : y.Head ∧ y.path = x.path ++ q := by
  induction q generalizing x with
  | nil =>
    obtain rfl := Option.some.inj hy
    exact ⟨h, (List.append_nil _).symm⟩
  | cons i q ih =>
    obtain ⟨z, hz, hrest⟩ := Option.bind_eq_some_iff.mp hy
    obtain ⟨hhead, hpath⟩ := h.next (hq i (List.mem_cons_self ..)) hz
    obtain ⟨hy, hypath⟩ := ih hhead (fun j hj => hq j (List.mem_cons_of_mem i hj)) hrest
    exact ⟨hy, by rw [hypath, hpath, List.append_assoc, List.singleton_append]⟩

namespace Boot

variable {B : Boot} {pa size : ℕ} {s₀ s : State} {es : List MemmapEntry} {v : ℕ}

/-- Where a table is accessed. -/
def tableAddress (B : Boot) (pa : ℕ) (x : Slot) : ℕ :=
  if x = .kernelPml4 0 then B.platform.kernelPml4 else B.place pa x + B.platform.hhdmOffset

/-- The flags of what is written to an element. -/
def flags : Slot → ℕ
  | .kernelPml4 i => if i = 511 then 3 else 7
  | .kernelHpd _ | .kernelLpd _ | .kernelPt _ _ => 3
  | .hhdmHpd _ | .hhdmLpd _ _ | .hhdmPt _ _ _ => 7

theorem flags_lt (x : Slot) : Flags (flags x) := by
  cases x with
  | kernelPml4 i =>
    change Flags (if i = 511 then 3 else 7)
    split_ifs <;> exact ⟨by decide, by decide⟩
  | _ => exact ⟨by simp [flags], by simp [flags]⟩

/-- What is written to an element above the last tables names the next table. -/
theorem value_of_next (B : Boot) (pa : ℕ) (hx : x.Head) (hi : i < 512) (hy : (x.elem i).next = some y) :
    x.elem i ∈ written ∧ B.value pa (x.elem i) = B.place pa y ||| flags (x.elem i) := by
  have hwithin := hx.within
  rw [mem_written]
  cases x <;> simp only [Slot.elem, Slot.next] at hy <;> simp only [Slot.Within] at hwithin <;>
    (try split_ifs at hy) <;> simp only [Option.some.injEq, reduceCtorEq] at hy <;> subst hy <;>
    refine ⟨?_, ?_⟩ <;> simp_all [Slot.elem, Assigned, value, flags]

/-- An element above the last tables that names none is not written. -/
theorem not_written_of_next (hlevel : x.path.length ≤ 2) (hy : (x.elem i).next = none) :
    x.elem i ∉ written := by
  rw [mem_written]
  cases x <;> simp only [Slot.elem, Slot.next] at hy <;> simp only [Slot.elem, Assigned] <;>
    (try split_ifs at hy) <;> simp_all [Slot.path]

section Image

variable (h : LoaderMaps B pa size s₀) (ht : B.Tables pa s) (hlow : pa + size ≤ 2 ^ 32)
include h

/-- A table lies in the image. -/
theorem LoaderMaps.table_mem (hx : x.Head) : pa ≤ B.place pa x ∧ B.place pa x + 4096 ≤ pa + size := by
  obtain ⟨hfirst, -⟩ := h.address_mem (hx.elem (by decide : 0 < 512)).1
  obtain ⟨-, hlast⟩ := h.address_mem (hx.elem (by decide : 511 < 512)).1
  have hrow : B.address (x.elem 511) = B.address (x.elem 0) + 8 * 511 := by
    cases x <;> simp only [Slot.elem, address]
  rw [hx.first] at hfirst hrow
  unfold place
  omega

/-- The address of the root is above all others. -/
theorem LoaderMaps.root_mem :
    kernelBase ≤ B.platform.kernelPml4 ∧ B.platform.kernelPml4 + 4096 ≤ kernelBase + size := by
  obtain ⟨hbase, hend, -⟩ := h.array_mem (B.array_eq (.kernelPml4 0))
  exact ⟨hbase, hend⟩

include hlow

/-- **An entry of a table** is the element of its array. -/
theorem LoaderMaps.entry_eq (hx : x.Head) (hi : i < 512) :
    entry (B.seen s).mem (B.tableAddress pa x) i = B.read s (x.elem i) := by
  unfold tableAddress
  split_ifs with hroot
  · subst hroot
    rfl
  · have haddress : B.address (x.elem i) = B.address x + 8 * i := by
      have hfirst := hx.first
      rw [← hfirst]
      cases x <;> simp only [Slot.elem, address] <;> omega
    have hentry := h.entry_table x (x.elem i) i hx.within (hx.elem hi).1 hx.offset_mod haddress
      (by decide : 0 < 512) s
    obtain ⟨-, hend⟩ := h.table_mem hx
    have hmod := h.place_mod hx.offset_mod
    have hmask : (B.place pa x ||| 0) &&& tableMask = B.place pa x :=
      land_tableMask (by omega) (by omega) (by decide)
    have hoffset := h.offset
    rw [addTable, hmask, Nat.mod_eq_of_lt (by omega)] at hentry
    exact hentry

/-- The address of a table that an entry names. -/
theorem LoaderMaps.joinTable_eq (hx : x.Head) (hne : x ≠ .kernelPml4 0) {f : ℕ} (hf : Flags f) :
    joinTable B.platform (B.place pa x ||| f) = B.tableAddress pa x ∧
      (B.place pa x ||| f) &&& tableMask &&& B.platform.hhdmOffset = 0 ∧ present (B.place pa x ||| f) = true := by
  obtain ⟨-, hend⟩ := h.table_mem hx
  have hmod := h.place_mod hx.offset_mod
  have hbits : B.place pa x &&& B.platform.hhdmOffset = 0 := by
    rw [h.offset]
    exact land_hhdm (by omega)
  refine ⟨?_, ?_, present_lor (by omega) hf⟩
  · rw [tableAddress, if_neg hne]
    exact joinTable_flags (by omega) (by omega) hf.lt hbits
  · rwa [land_tableMask (by omega) (by omega) hf.lt]

include ht

/-- **One step down**: the tables are found where the arrays are. -/
theorem LoaderMaps.child_boot (hx : x.Head) (hlevel : x.path.length ≤ 2) (hi : i < 512) :
    child B.platform (B.seen s).mem (B.tableAddress pa x) i = (x.elem i).next.map (B.tableAddress pa) := by
  have hentry := h.entry_eq (s := s) hlow hx hi
  cases hnext : (x.elem i).next with
  | none =>
    rw [ht.zero (hx.elem hi).1 (hx.elem hi).2 (not_written_of_next hlevel hnext)] at hentry
    apply child_of_not_present
    rw [hentry]
    rfl
  | some y =>
    obtain ⟨hwritten, hvalue⟩ := value_of_next B pa hx hi hnext
    obtain ⟨hy, hpath⟩ := hx.next hi hnext
    have hne : y ≠ .kernelPml4 0 := by
      rintro rfl
      exact absurd hpath (by simp [Slot.path])
    obtain ⟨hjoin, -, hpresent⟩ := h.joinTable_eq hlow hy hne (flags_lt (x.elem i))
    rw [ht.value hwritten (hx.elem hi).2, hvalue] at hentry
    rw [child_of_present (by rwa [hentry]), hentry, hjoin]
    rfl

/-- **The tables** below a table, by their arrays. -/
theorem LoaderMaps.descend_boot (hx : x.Head) (hq : ∀ i ∈ q, i < 512) (hlevel : x.path.length + q.length ≤ 3) :
    tableAt B.platform (B.seen s).mem (B.tableAddress pa x) q =
      (descend (fun x i => (Slot.elem x i).next) x q).map (B.tableAddress pa) := by
  induction q generalizing x with
  | nil => rfl
  | cons i q ih =>
    rw [List.length_cons] at hlevel
    have hi := hq i (List.mem_cons_self ..)
    rw [tableAt, descend_cons, descend_cons, h.child_boot ht hlow hx (by omega) hi]
    cases hnext : (x.elem i).next with
    | none => rfl
    | some y =>
      obtain ⟨hy, hpath⟩ := hx.next hi hnext
      refine ih hy (fun j hj => hq j (List.mem_cons_of_mem i hj)) ?_
      rw [hpath, List.length_append, List.length_singleton]
      omega

/-- The table at a path from the root. -/
theorem LoaderMaps.tableAt_boot {t : ℕ} (hq : ∀ i ∈ q, i < 512) (hlen : q.length ≤ 3)
    (htable : tableAt B.platform (B.seen s).mem B.platform.kernelPml4 q = some t) :
    ∃ x : Slot, x.Head ∧ x.path = q ∧ t = B.tableAddress pa x := by
  have hdescend := h.descend_boot ht hlow (q := q) Slot.head_root hq (by simpa [Slot.path] using hlen)
  rw [show B.tableAddress pa (.kernelPml4 0) = B.platform.kernelPml4 from if_pos rfl, htable] at hdescend
  obtain ⟨x, hx, hxt⟩ := Option.map_eq_some_iff.mp hdescend.symm
  obtain ⟨hhead, hpath⟩ := Slot.head_root.descend hq hx
  exact ⟨x, hhead, hpath, hxt.symm⟩

omit ht in
/-- Tables of different arrays or rows are apart. -/
theorem LoaderMaps.tableAddress_apart (hx : x.Head) (hy : y.Head) (hne : x ≠ y) :
    Apart (B.tableAddress pa x) 4096 (B.tableAddress pa y) 4096 := by
  have happart := h.place_apart hx.within hy.within hne
  have hmod := h.place_mod hx.offset_mod
  have hmod' := h.place_mod hy.offset_mod
  obtain ⟨-, hend⟩ := h.table_mem hx
  obtain ⟨-, hend'⟩ := h.table_mem hy
  obtain ⟨hroot, -⟩ := h.root_mem
  have hbase := kernelBase_eq
  have hoffset := h.offset
  unfold tableAddress
  unfold Apart at happart ⊢
  split_ifs with hxroot hyroot
  · exact absurd (hxroot.trans hyroot.symm) hne
  · omega
  · omega
  · omega

end Image

/-! ## The user bits -/

/-- The pages that are mapped from the start. -/
def Booted (v : ℕ) : Prop :=
  pml4Index v = 511 ∧ hpdIndex v = 510 ∨ pml4Index v = 256 ∧ hpdIndex v < 4

section Access

variable (h : LoaderMaps B pa size s₀) (ht : B.Tables pa s) (hlow : pa + size ≤ 2 ^ 32)
include h ht hlow

/-- The walk of ring 3 through a table above the last ones. -/
theorem LoaderMaps.userWalk_boot (hx : x.Head) (hi : i < 512) (hy : (x.elem i).next = some y) (is : List ℕ) :
    userWalk B.platform (B.seen s).mem (B.tableAddress pa x) (i :: is) =
      (userBit (flags (x.elem i)) && userWalk B.platform (B.seen s).mem (B.tableAddress pa y) is) := by
  have hentry := h.entry_eq (s := s) hlow hx hi
  obtain ⟨hwritten, hvalue⟩ := value_of_next B pa hx hi hy
  obtain ⟨hhead, hpath⟩ := hx.next hi hy
  have hne : y ≠ .kernelPml4 0 := by
    rintro rfl
    exact absurd hpath (by simp [Slot.path])
  have hmod := h.place_mod hhead.offset_mod
  obtain ⟨hjoin, -, hpresent⟩ := h.joinTable_eq hlow hhead hne (flags_lt (x.elem i))
  rw [ht.value hwritten (hx.elem hi).2, hvalue] at hentry
  rw [userWalk, hentry, hpresent, hjoin, userBit_lor (by omega), Bool.true_and]

/-- An element above the last tables that names none ends the walk. -/
theorem LoaderMaps.userWalk_absent (hx : x.Head) (hlevel : x.path.length ≤ 2) (hi : i < 512)
    (hy : (x.elem i).next = none) (is : List ℕ) :
    userWalk B.platform (B.seen s).mem (B.tableAddress pa x) (i :: is) = false := by
  have hentry := h.entry_eq (s := s) hlow hx hi
  rw [ht.zero (hx.elem hi).1 (hx.elem hi).2 (not_written_of_next hlevel hy)] at hentry
  rw [userWalk, hentry, present_zero, Bool.false_and, Bool.false_and]

/-- **The pages open to ring 3** after `KernelInitializePaging`: those of the HHDM. -/
theorem LoaderMaps.accessible_boot_iff (v : ℕ) :
    accessible B.platform (B.seen s).mem B.platform.kernelPml4 v = true ↔
      pml4Index v = 256 ∧ hpdIndex v < 4 := by
  have hroot : B.platform.kernelPml4 = B.tableAddress pa (.kernelPml4 0) := (if_pos rfl).symm
  have hp := pml4Index_lt v
  have hh := hpdIndex_lt v
  have hl := lpdIndex_lt v
  have ht' := ptIndex_lt v
  rw [accessible, pathOf, hroot]
  simp only [List.cons_append, List.nil_append]
  by_cases h511 : pml4Index v = 511
  · -- the entry of the image has no user bit
    have hnext : ((Slot.kernelPml4 0).elem (pml4Index v)).next = some (.kernelHpd 0) := if_pos h511
    rw [h.userWalk_boot ht hlow Slot.head_root hp hnext]
    have hbit : userBit (flags ((Slot.kernelPml4 0).elem (pml4Index v))) = false := by
      rw [h511]
      decide
    rw [hbit, Bool.false_and]
    simp [h511]
  by_cases h256 : pml4Index v = 256
  · have hnext : ((Slot.kernelPml4 0).elem (pml4Index v)).next = some (.hhdmHpd 0) := by
      rw [h256]
      rfl
    have hbit : userBit (flags ((Slot.kernelPml4 0).elem (pml4Index v))) = true := by
      rw [h256]
      decide
    have hhead : (Slot.hhdmHpd 0).Head := ⟨by decide, rfl⟩
    rw [h.userWalk_boot ht hlow Slot.head_root hp hnext, hbit, Bool.true_and]
    by_cases hfour : hpdIndex v < 4
    · have hhead' : (Slot.hhdmLpd (hpdIndex v) 0).Head := ⟨⟨hfour, by decide⟩, rfl⟩
      have hhead'' : (Slot.hhdmPt (hpdIndex v) (lpdIndex v) 0).Head := ⟨⟨hfour, hl, by decide⟩, rfl⟩
      have hbit' (y : Slot) (hy : flags y = 7) : userBit (flags y) = true := by
        rw [hy]
        decide
      rw [h.userWalk_boot ht hlow hhead hh (if_pos hfour), hbit' _ rfl, Bool.true_and,
        h.userWalk_boot ht hlow hhead' hl rfl, hbit' _ rfl, Bool.true_and]
      -- the entry of the page
      have hentry := h.entry_eq (s := s) hlow hhead'' ht'
      have hwritten : (Slot.hhdmPt (hpdIndex v) (lpdIndex v) 0).elem (ptIndex v) ∈ written :=
        mem_written.mpr ⟨hfour, hl, by omega⟩
      have hpage : (hpdIndex v <<< 30 + lpdIndex v <<< 21 + ptIndex v <<< 12) % 512 = 0 := by
        simp only [Nat.shiftLeft_eq]
        omega
      have hflags : Flags 7 := ⟨by decide, by decide⟩
      rw [ht.value hwritten (hhead''.elem ht').2] at hentry
      change entry _ _ _ = hpdIndex v <<< 30 + lpdIndex v <<< 21 + ptIndex v <<< 12 ||| 7 at hentry
      rw [userWalk, hentry, present_lor hpage hflags, userBit_lor hpage, userWalk]
      exact iff_of_true (by decide) ⟨h256, hfour⟩
    · rw [h.userWalk_absent ht hlow hhead (by decide) hh (if_neg hfour)]
      simp [hfour]
  · rw [h.userWalk_absent ht hlow Slot.head_root (by decide) hp ((if_neg h511).trans (if_neg h256))]
    simp [h256]

/-- The pages that are mapped from the start are translated. -/
theorem LoaderMaps.lookup_boot (hv : Booted v) :
    (lookup B.platform (B.seen s).mem B.platform.kernelPml4 v).isSome := by
  have hpath : ∀ i ∈ pathOf v, i < 512 := by
    simp only [pathOf, List.mem_cons, List.not_mem_nil, or_false, forall_eq_or_imp, forall_eq]
    exact ⟨pml4Index_lt v, hpdIndex_lt v, lpdIndex_lt v⟩
  have hroot : B.tableAddress pa (.kernelPml4 0) = B.platform.kernelPml4 := if_pos rfl
  have hdescend := h.descend_boot ht hlow Slot.head_root hpath (by simp [Slot.path, pathOf])
  have hleaf (x : Slot) (hx : x.Head) (hwritten : x.elem (ptIndex v) ∈ written)
      (hodd : B.value pa (x.elem (ptIndex v)) % 2 = 1) :
      (leaf (B.seen s).mem (B.tableAddress pa x) (ptIndex v)).isSome := by
    have hentry := h.entry_eq (s := s) hlow hx (ptIndex_lt v)
    rw [ht.value hwritten (hx.elem (ptIndex_lt v)).2] at hentry
    rw [leaf, hentry, if_pos (present_iff.mpr hodd)]
    rfl
  have hl := lpdIndex_lt v
  have ht' := ptIndex_lt v
  rw [hroot] at hdescend
  rw [lookup, hdescend]
  rcases hv with ⟨h511, h510⟩ | ⟨h256, hfour⟩
  · have harrive : descend (fun x i => (Slot.elem x i).next) (.kernelPml4 0) (pathOf v) =
        some (.kernelPt (lpdIndex v) 0) := by
      rw [pathOf, h511, h510]
      rfl
    rw [harrive]
    refine hleaf (.kernelPt (lpdIndex v) 0) ⟨⟨hl, by decide⟩, rfl⟩ (mem_written.mpr ⟨hl, by omega⟩) ?_
    exact Nat.or_mod_two_eq_one.mpr (.inr rfl)
  · have harrive : descend (fun x i => (Slot.elem x i).next) (.kernelPml4 0) (pathOf v) =
        some (.hhdmPt (hpdIndex v) (lpdIndex v) 0) := by
      rw [pathOf, h256]
      simp [descend_cons, Slot.elem, Slot.next, hfour]
    rw [harrive]
    refine hleaf (.hhdmPt (hpdIndex v) (lpdIndex v) 0) ⟨⟨hfour, hl, by decide⟩, rfl⟩
      (mem_written.mpr ⟨hfour, hl, by omega⟩) ?_
    exact Nat.or_mod_two_eq_one.mpr (.inr rfl)

/-- The slots of `kernel_pml4` that are there from the start. -/
theorem LoaderMaps.present_boot {i : ℕ} (hi : i = 256 ∨ i = 511) :
    present (entry (B.seen s).mem B.platform.kernelPml4 i) = true := by
  have hentry := h.entry_eq (s := s) hlow Slot.head_root (i := i) (by omega)
  have hroot : B.tableAddress pa (.kernelPml4 0) = B.platform.kernelPml4 := if_pos rfl
  have hwritten : (Slot.kernelPml4 0).elem i ∈ written := mem_written.mpr hi.symm
  rw [hroot, ht.value hwritten (Slot.head_root.elem (by omega)).2] at hentry
  rw [hentry, present_iff]
  change (if i = 511 then _ ||| 3 else _ ||| 7) % 2 = 1
  split_ifs
  · exact Nat.or_mod_two_eq_one.mpr (.inr rfl)
  · exact Nat.or_mod_two_eq_one.mpr (.inr rfl)

end Access

/-! ## After the initialization -/

/-- **A memory map that fits**: whole pages below 4 GiB, where the HHDM reaches them, none of them twice, and none
in the image of the kernel. -/
structure MapFits (pa size : ℕ) (es : List MemmapEntry) : Prop where
  paged : ∀ e ∈ es, e.Paged
  ends : ∀ e ∈ es, e.type = 0 → e.Ends
  distinct : (usablePages es).Nodup
  low : ∀ f ∈ usablePages es, f + 4096 ≤ 2 ^ 32
  image : ∀ f ∈ usablePages es, Apart f 4096 pa size

/-- The frames in the pool after the initialization are those of the map. -/
theorem MapFits.memList (hmap : MapFits pa size es) {s s' : State}
    (hinit : kernelInitializeMemStack (some es) s = .ok s') {k : ℕ} (hk : k < (usablePages es).length) :
    (usablePages es)[k]? = some (s'.memList k) ∧ s'.memList k ∈ usablePages es := by
  have hget : s'.memList k = (usablePages es)[k] := by
    rw [kernelInitializeMemStack_eq hmap.paged hmap.ends hinit]
    simp [fill, List.getElem?_eq_getElem hk]
  rw [hget]
  exact ⟨List.getElem?_eq_getElem hk, List.getElem_mem hk⟩

theorem MapFits.stackPosition (hmap : MapFits pa size es) {s s' : State}
    (hinit : kernelInitializeMemStack (some es) s = .ok s') : s'.stackPosition = s.stackPosition := by
  rw [kernelInitializeMemStack_eq hmap.paged hmap.ends hinit]

/-- The initialization fills the pool once the tables are written. -/
theorem LoaderMaps.memStack (h : LoaderMaps B pa size s₀) {cr3 : ℕ}
    (hinit : B.kernelInitializePaging (some es) s₀ = .ok (cr3, s)) :
    ∃ s', s' = B.assignAll pa written s₀ ∧ kernelInitializeMemStack (some es) s' = .ok s := by
  rw [h.kernelInitializePaging_eq] at hinit
  cases hstack : kernelInitializeMemStack (some es) (B.assignAll pa written s₀) with
  | error f =>
    rw [hstack] at hinit
    cases hinit
  | ok s' =>
    rw [hstack] at hinit
    cases hinit
    exact ⟨_, rfl, hstack⟩

theorem memList_assignAll (pa : ℕ) (xs : List Slot) (s : State) :
    (B.assignAll pa xs s).memList = s.memList ∧
      (B.assignAll pa xs s).stackPosition = s.stackPosition := by
  induction xs generalizing s with
  | nil => exact ⟨rfl, rfl⟩
  | cons x xs ih => exact ih _

section Started

variable (h : LoaderMaps B pa size s₀) (hlow : pa + size ≤ 2 ^ 32) (hmap : MapFits pa size es) {cr3 : ℕ}
  (hinit : B.kernelInitializePaging (some es) s₀ = .ok (cr3, s))
include h hlow hmap hinit

/-- **What `KernelInitializePaging` leaves is a forest**: each table is at one place, and apart from all frames
that the pool has. -/
theorem boot_forest : Forest B.platform (View.single B.platform.kernelPml4) (usablePages es).length
    (B.seen s) := by
  obtain ⟨ht, -⟩ := h.tables hinit
  obtain ⟨s', -, hstack⟩ := h.memStack hinit
  have hframe (k : ℕ) (hk : k < (usablePages es).length) := hmap.memList hstack hk
  have hroot {r : ℕ} {p : List ℕ} (hp : (View.single B.platform.kernelPml4).Path r p) :
      r = B.platform.kernelPml4 := hp.1
  have hbase := kernelBase_eq
  have hoffset := h.offset
  refine ⟨⟨?_, ?_, ?_, ?_⟩, ?_, ?_, ?_⟩
  · exact fun k _ hk => mod_of_mem_usablePages hmap.paged (hframe k hk).2
  · intro k _ hk
    have hlow := hmap.low _ (hframe k hk).2
    exact (by omega : s.memList k < 2 ^ 63)
  · intro k _ hk
    have hlow := hmap.low _ (hframe k hk).2
    rw [h.offset]
    exact land_hhdm (by omega : s.memList k < 2 ^ 47)
  · intro k l _ hk _ hl heq
    have heq' : (usablePages es)[k]? = (usablePages es)[l]? := by
      rw [(hframe k hk).1, (hframe l hl).1]
      exact congrArg some heq
    exact hmap.distinct.getElem_inj_iff.mp (Option.some.inj (by
      rwa [List.getElem?_eq_getElem hk, List.getElem?_eq_getElem hl] at heq'))
  · intro r r' p q t u hp hlp htp hq hlq htq
    -- two tables of the loader are the same slot, or lie on different pages
    obtain rfl := hroot hp
    obtain rfl := hroot hq
    obtain ⟨x, hx, rfl, rfl⟩ := h.tableAt_boot ht hlow hp.2.1 hlp htp
    obtain ⟨y, hy, rfl, rfl⟩ := h.tableAt_boot ht hlow hq.2.1 hlq htq
    rcases eq_or_ne x y with rfl | hne
    · exact .inl ⟨rfl, rfl⟩
    · exact .inr (h.tableAddress_apart hlow hx hy hne)
  · intro r p t hp hlp htp k _ hk
    obtain rfl := hroot hp
    obtain ⟨x, hx, -, rfl⟩ := h.tableAt_boot ht hlow hp.2.1 hlp htp
    -- no usable page holds a table of the loader
    have himage := hmap.image _ (hframe k hk).2
    have hbelow := hmap.low _ (hframe k hk).2
    obtain ⟨hstart, hend⟩ := h.table_mem hx
    obtain ⟨hrootlow, -⟩ := h.root_mem
    change Apart _ 4096 (s.memList k + B.platform.hhdmOffset) 4096
    unfold tableAddress
    unfold Apart at himage ⊢
    split_ifs <;> omega
  · intro r p t j hp hlp htp hpresent
    obtain rfl := hroot hp
    have hj := hp.2.1 j (by simp)
    obtain ⟨x, hx, rfl, rfl⟩ := h.tableAt_boot ht hlow
      (fun i hi => hp.2.1 i (List.mem_append_left _ hi)) (by omega) htp
    have hentry := h.entry_eq (s := s) hlow hx hj
    change present (entry (B.seen s).mem _ j) = true at hpresent
    change entry (B.seen s).mem _ j &&& tableMask &&& _ = 0
    rw [hentry] at hpresent ⊢
    -- an entry that the loader left out is zero, any other leads to a table
    cases hnext : (x.elem j).next with
    | none =>
      rw [ht.zero (hx.elem hj).1 (hx.elem hj).2 (not_written_of_next hlp hnext)]
      rw [Nat.zero_and, Nat.zero_and]
    | some y =>
      obtain ⟨hwritten, hvalue⟩ := value_of_next B pa hx hj hnext
      obtain ⟨hy, hpath⟩ := hx.next hj hnext
      have hne : y ≠ .kernelPml4 0 := by
        rintro rfl
        exact absurd hpath (by simp [Slot.path])
      rw [ht.value hwritten (hx.elem hj).2, hvalue]
      exact (h.joinTable_eq hlow hy hne (flags_lt _)).2.1

/-- **Access as booted**: whatever is mapped from then on and however many roots are made, ring 3 can access a
page that was mapped from the start under any of them exactly if it is one of the HHDM. -/
theorem access_as_booted {calls : List KernelCall}
    (hposs : Along (KernelRun.step B.platform) (KernelRun.Possible B.platform (usablePages es).length)
      ⟨B.seen s, []⟩ calls) (hv : Booted v) (hspares : ∀ c ∈ calls, c.Spares v) :
    Everywhere (KernelRun.step B.platform) (fun r => ∀ root, root = B.platform.kernelPml4 ∨ root ∈ r.roots →
      accessible B.platform r.mmu.mem root v = decide (pml4Index v = 256)) ⟨B.seen s, []⟩ calls := by
  obtain ⟨ht, -⟩ := h.tables hinit
  have hforest := boot_forest h hlow hmap hinit
  have hshared : SharedSlots B.platform {i | i = 256 ∨ i = 511} (usablePages es).length ⟨B.seen s, []⟩ :=
    SharedSlots.start hforest fun i hi => h.present_boot ht hlow hi
  have hpage : PageKept B.platform v (decide (pml4Index v = 256)) ⟨B.seen s, []⟩ := by
    refine ⟨h.lookup_boot ht hlow hv, ?_⟩
    rw [Bool.eq_iff_iff, decide_eq_true_iff]
    refine (h.accessible_boot_iff ht hlow v).trans (and_iff_left_of_imp fun h256 => ?_)
    rcases hv with ⟨h511, -⟩ | ⟨-, hfour⟩
    · omega
    · exact hfour
  refine hshared.everywhere (fun i hi => ?_) hpage ?_ hposs hspares
  · rcases hi with rfl | rfl <;> decide
  · exact hv.elim (fun h511 => .inr h511.1) fun h256 => .inl h256.1

end Started

/-! ## The small loader -/

/-- One region of eight frames. -/
def smallRegion : List MemmapEntry := [⟨0x2000000, 0x8000, 0⟩]

theorem mapFits_smallRegion : MapFits 0x10000000 0x2000000 smallRegion where
  paged := by decide
  ends := by decide
  distinct := by decide
  low := by decide
  image := by decide

/-- The boot of the small loader, and the tables after it. -/
theorem smallRegion_booted : ∃ s, smallBoot.kernelInitializePaging (some smallRegion) loaderState =
    .ok (smallBoot.place 0x10000000 (.kernelPml4 0), s) ∧ s.stackPosition = 0 := by
  obtain ⟨r, hr⟩ : ∃ r, kernelInitializeMemStack (some smallRegion)
      (smallBoot.assignAll 0x10000000 written loaderState) = .ok r := ⟨_, rfl⟩
  refine ⟨r, ?_, ?_⟩
  · rw [loaderMaps_small.kernelInitializePaging_eq, hr]
    rfl
  · rw [mapFits_smallRegion.stackPosition hr, (memList_assignAll _ _ _).2]
    rfl

end Boot

end Cutesugar.Kernel.Mmu
