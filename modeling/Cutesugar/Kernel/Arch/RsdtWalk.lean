import Cutesugar.Kernel.Arch.Acpi

/-!
# The walk over the RSDT

The RSDT is its header and the pointers behind it, and the loop goes on while its index is at most the
number of them. It reads the four bytes behind the table as one more pointer, and looks for a signature
where that leads, whatever the table is.

- `tablesOf`: the state after a number of pointers.
- `rsdtLoop_eq`: the loop reads one pointer more than there are.
- `rsdt_never_exact`: so it never reads exactly those of the table.
-/

namespace Cutesugar.Kernel

open Lib Libc

variable {hhdm rsdt fuel n k header : ℕ} {mem : Memory} {i : Int32} {r : RsdtState}

/-! ## The pointers of the table -/

/-- Where the pointers of the table are. -/
def pointersOf (rsdt count : ℕ) : List ℕ := (List.range count).map fun k => (rsdt + 36 + 4 * k) % 2 ^ 64

/-- The tables that they lead to. -/
def headersOf (hhdm : ℕ) (mem : Memory) (rsdt count : ℕ) : List ℕ :=
  (pointersOf rsdt count).map fun p => (mem.load p 4 + hhdm) % 2 ^ 64

/-- The last one with a signature, or the null pointer. -/
def lastSigned (mem : Memory) (name : List UInt8) (headers : List ℕ) : ℕ :=
  ((headers.filter fun header => signature mem header = name.take 4).getLast?).getD 0

/-- What the first pointers lead to. -/
def tablesOf (hhdm : ℕ) (mem : Memory) (rsdt count : ℕ) : RsdtState where
  pointers := pointersOf rsdt count
  headers := headersOf hhdm mem rsdt count
  madt := lastSigned mem apic (headersOf hhdm mem rsdt count)
  fadt := lastSigned mem facp (headersOf hhdm mem rsdt count)

/-- **The loop reads exactly the first pointers**: it ends, and has read them, and what they lead to, and
nothing else. -/
def ReadsExactly (hhdm : ℕ) (mem : Memory) (rsdt count : ℕ) : Prop :=
  ∃ fuel, rsdtLoop hhdm mem rsdt fuel 0 { pointers := [], headers := [], madt := 0, fadt := 0 } =
    .ok (tablesOf hhdm mem rsdt count)

/-- One more table with or without a signature. -/
theorem lastSigned_append (mem : Memory) (name : List UInt8) (headers : List ℕ) (header : ℕ) :
    lastSigned mem name (headers ++ [header]) =
      if signature mem header = name.take 4 then header else lastSigned mem name headers := by
  unfold lastSigned
  rw [List.filter_append]
  split_ifs with h
  · simp [h]
  · simp [h]

/-! ## The signatures -/

/-- A name of four letters is compared with all of the signature. -/
theorem strncmp_signature (name : List UInt8) (hlen : (name.take 4).length = 4) (hletters : 0 ∉ name.take 4)
    (mem : Memory) (header : ℕ) :
    ∃ order, strncmp name (signature mem header) 4 = .ok order ∧
      (order = 0 ↔ signature mem header = name.take 4) := by
  have hsize : (signature mem header).length = 4 := by simp [signature]
  rw [List.length_take] at hlen
  have hname : 4 ≤ name.length := by omega
  obtain ⟨order, horder, hiff⟩ := strncmp_spec (.inl hname) (.inl hsize.ge)
  refine ⟨order, horder, hiff.trans ?_⟩
  rw [cString_of_notMem hletters, List.take_of_length_le hsize.le]
  constructor
  · intro h
    -- four bytes before the first NUL are all of the signature
    have hletter : cString (signature mem header) <+: signature mem header := List.takeWhile_prefix _
    rw [← h] at hletter
    have hall : (name.take 4).length = (signature mem header).length := by
      rw [hsize, List.length_take]
      exact hlen
    exact (hletter.eq_of_length hall).symm
  · intro h
    rw [h, cString_of_notMem hletters]

/-- What a table becomes. -/
theorem rsdtEntry_eq (mem : Memory) (header : ℕ) (r : RsdtState) :
    rsdtEntry mem header r = .ok { r with
      madt := if signature mem header = apic.take 4 then header else r.madt
      fadt := if signature mem header = facp.take 4 then header else r.fadt } := by
  obtain ⟨first, hfirst, hapic⟩ := strncmp_signature apic rfl (by decide) mem header
  obtain ⟨second, hsecond, hfacp⟩ := strncmp_signature facp rfl (by decide) mem header
  have hdiffer : apic.take 4 ≠ facp.take 4 := by decide
  unfold rsdtEntry
  rw [hfirst]
  simp only [bind, Except.bind]
  by_cases hone : first = 0
  · have hsigned := hapic.mp hone
    rw [if_pos hone, if_pos hsigned, if_neg (hsigned ▸ hdiffer)]
  · rw [if_neg hone, if_neg (hapic.not.mp hone), hsecond]
    by_cases htwo : second = 0
    · simp [htwo, hfacp.mp htwo]
    · simp [htwo, hfacp.not.mp htwo]

/-! ## The loop -/

theorem pointersOf_succ (rsdt k : ℕ) :
    pointersOf rsdt (k + 1) = pointersOf rsdt k ++ [(rsdt + 36 + 4 * k) % 2 ^ 64] := by
  rw [pointersOf, List.range_succ, List.map_append]
  rfl

theorem headersOf_succ (hhdm : ℕ) (mem : Memory) (rsdt k : ℕ) :
    headersOf hhdm mem rsdt (k + 1) =
      headersOf hhdm mem rsdt k ++ [(mem.load ((rsdt + 36 + 4 * k) % 2 ^ 64) 4 + hhdm) % 2 ^ 64] := by
  rw [headersOf, pointersOf_succ, List.map_append]
  rfl

theorem rsdtBound_eq (h : mem.load (rsdt + 4) 4 = 36 + 4 * n) : rsdtBound mem rsdt = n := by
  have hlt := mem.load_lt (rsdt + 4) 4
  unfold rsdtBound
  omega

/-- **Step lemma**: a round takes the next pointer. -/
theorem rsdtLoop_round (hi : i.toInt = k) (hle : k ≤ rsdtBound mem rsdt) (fuel : ℕ) :
    rsdtLoop hhdm mem rsdt (fuel + 1) i (tablesOf hhdm mem rsdt k) =
      rsdtLoop hhdm mem rsdt fuel (i + 1) (tablesOf hhdm mem rsdt (k + 1)) := by
  have hhigh := i.toInt_lt
  have hvalue : ofInt i = k := by
    have heq := ofInt_eq i
    omega
  rw [rsdtLoop, if_pos (hvalue.symm ▸ hle)]
  simp only [rsdtEntry_eq, bind, Except.bind, pointerAddress, hvalue]
  simp only [tablesOf, pointersOf_succ, headersOf_succ, lastSigned_append]

/-- **Run lemma**: the loop goes on to the pointer behind the last one. -/
theorem rsdtLoop_eq (hhdm fuel : ℕ) (h : mem.load (rsdt + 4) 4 = 36 + 4 * n) (hi : i.toInt = k)
    (hk : k ≤ n + 1) :
    rsdtLoop hhdm mem rsdt fuel i (tablesOf hhdm mem rsdt k) =
      if n + 2 ≤ k + fuel then .ok (tablesOf hhdm mem rsdt (n + 1)) else .error .stuck := by
  have hlt := mem.load_lt (rsdt + 4) 4
  induction fuel generalizing i k with
  | zero =>
    rw [if_neg (by omega)]
    rfl
  | succ fuel ih =>
    rcases Nat.lt_or_ge n k with hend | hle
    · -- the index is one beyond the number of pointers
      obtain rfl : k = n + 1 := by omega
      have hvalue := ofInt_eq i
      have hhigh := i.toInt_lt
      rw [rsdtLoop, rsdtBound_eq h, if_neg (by omega), if_pos (by omega)]
    · have hnext : (i + 1).toInt = (k + 1 : ℕ) := by
        have hone : (1 : Int32).toInt = 1 := rfl
        rw [Int32.toInt_add, hi, hone, Int.bmod_eq_of_le] <;> omega
      rw [rsdtLoop_round hi (by rw [rsdtBound_eq h]; exact hle), ih hnext (by omega)]
      exact if_congr (by omega) rfl rfl

/-- The loop ends, and has read one pointer more than the table has. -/
theorem reads_one_more (h : mem.load (rsdt + 4) 4 = 36 + 4 * n) (hhdm : ℕ) :
    ReadsExactly hhdm mem rsdt (n + 1) := by
  have heq := rsdtLoop_eq hhdm (n + 2) (i := 0) (k := 0) h rfl (Nat.zero_le _)
  rw [if_pos (by omega)] at heq
  exact ⟨n + 2, heq⟩

/-- **The walk over the RSDT** never reads exactly the pointers of the table. -/
theorem rsdt_never_exact (hhdm : ℕ) (mem : Memory) (rsdt n : ℕ) (h : mem.load (rsdt + 4) 4 = 36 + 4 * n) :
    ¬ ReadsExactly hhdm mem rsdt n := by
  rintro ⟨fuel, hloop⟩
  have heq := rsdtLoop_eq hhdm fuel (i := 0) (k := 0) h rfl (Nat.zero_le _)
  change rsdtLoop hhdm mem rsdt fuel 0 (tablesOf hhdm mem rsdt 0) = _ at hloop
  rw [heq] at hloop
  split_ifs at hloop
  have hpointers := congrArg (fun r => r.pointers.length) (Except.ok.inj hloop)
  simp [tablesOf, pointersOf] at hpointers

/-- A memory with an RSDT at `0x40`, whose two pointers lead to a MADT at `0x100` and a FADT at `0x200`. -/
def twoTables : Memory := fun a =>
  if a = 0x44 then 44
  else if a = 0x65 then 1
  else if a = 0x69 then 2
  else if a < 0x100 then 0
  else if a < 0x200 then (apic.take 4).getD (a - 0x100) 0
  else (facp.take 4).getD (a - 0x200) 0

/-- Both tables are found, and the loop goes on to a third one. -/
theorem rsdt_never_exact_two : twoTables.load (0x40 + 4) 4 = 36 + 4 * 2 ∧
    (tablesOf 0 twoTables 0x40 2).madt = 0x100 ∧ (tablesOf 0 twoTables 0x40 2).fadt = 0x200 ∧
    ReadsExactly 0 twoTables 0x40 3 ∧ ¬ ReadsExactly 0 twoTables 0x40 2 :=
  ⟨by decide, by decide, by decide, reads_one_more (n := 2) (by decide) 0,
    rsdt_never_exact 0 twoTables 0x40 2 (by decide)⟩

/-- A memory with an RSDT of no pointers at address 0. -/
def emptyRsdt : Memory := fun a => if a = 4 then 36 else 0

/-- Its loop reads what is behind the table as a pointer. -/
theorem empty_rsdt_overread : ¬ ReadsExactly 0 emptyRsdt 0 0 := by
  rintro ⟨fuel, hloop⟩
  cases fuel with
  | zero => exact nomatch hloop
  | succ fuel =>
    have hread : rsdtLoop 0 emptyRsdt 0 (fuel + 1) 0 (tablesOf 0 emptyRsdt 0 0) = _ :=
      rsdtLoop_eq 0 (fuel + 1) (n := 0) (k := 0) (by decide) rfl (Nat.zero_le _)
    change rsdtLoop 0 emptyRsdt 0 (fuel + 1) 0 (tablesOf 0 emptyRsdt 0 0) = _ at hloop
    rw [hread] at hloop
    split_ifs at hloop
    exact absurd hloop (by decide)

end Cutesugar.Kernel
