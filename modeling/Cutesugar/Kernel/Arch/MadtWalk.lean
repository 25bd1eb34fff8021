import Cutesugar.Kernel.Arch.Acpi
import Cutesugar.Lib.Entries
import Mathlib.Data.List.Perm.Subperm

/-!
# The walk over the MADT

The loop trusts the table. An entry of length 0 holds it forever, a table that is shorter than its own
header makes the bound a huge number, and the bytes of the last entry are read, and its processor is
created, wherever the entry ends.

- `Madt.Visits`: the entries that the loop comes to, and what it reads of them.
- `Madt.Complete`: the walk ends, within the table, with the processors of the table.
- `madt_complete_iff`: for which tables it does.
-/

namespace Cutesugar.Kernel

open Lib Libc

variable {hhdm ioapicAddress fuel a b k n : ℕ} {t : Madt} {i : Int32} {m m' m'' : MadtState}

/-! ## Entries -/

/-- How long an entry is. -/
def Madt.size (t : Madt) (a : ℕ) : Option ℕ := (t.bytes[a + 1]?).map UInt8.toNat

/-- An entry begins there. -/
def Madt.Entry (t : Madt) (a : ℕ) : Prop := Begins t.size 44 a

/-- An entry ends within the table. -/
def Madt.Inside (t : Madt) (a : ℕ) : Prop := ∃ n, t.size a = some n ∧ a + n ≤ t.bytes.length

/-- An entry of a processor lies wholly inside the table. -/
def Madt.Processor (t : Madt) (a : ℕ) : Prop := t.Entry a ∧ t.bytes[a]? = some 0 ∧ t.Inside a

/-- The call for an entry, with byte 3 of it. -/
def Madt.Creates (t : Madt) (a : ℕ) (c : ProcessorCall) : Prop :=
  ∃ id, t.bytes[a + 3]? = some id ∧ c = ⟨id.toUInt32, 0⟩

/-- **The walk is complete**: it ends without a read outside of the table, and makes one call for each
processor of the table, in the order of the entries. -/
def Madt.Complete (hhdm ioapicAddress : ℕ) (t : Madt) : Prop :=
  ∃ fuel m entries, madtLoop hhdm t fuel 0 { ioapicAddress, processors := [] } = .ok m ∧
    entries.Pairwise (· < ·) ∧ (∀ a, a ∈ entries ↔ t.Processor a) ∧
    List.Forall₂ t.Creates entries m.processors

/-- The loop reads the bytes of an entry within the table, and goes on behind it. -/
structure Madt.Readable (t : Madt) (a : ℕ) : Prop where
  size : ∃ n, t.size a = some n ∧ n ≠ 0
  processor : t.bytes[a]? = some 0 → a + 3 < t.bytes.length
  ioapic : t.bytes[a]? = some 1 → a + 8 ≤ t.bytes.length

/-- A table that the loop can walk over. From `2 ^ 31` bytes of entries on the index is negative, which the
bound takes for a huge number, and the loop ends. -/
structure Madt.WellFormed (t : Madt) : Prop where
  header : 44 ≤ t.bytes.length
  readable : ∀ a, t.Entry a → a < t.bytes.length → a < 44 + 2 ^ 31 → t.Readable a
  processor : ∀ a, t.Entry a → t.bytes[a]? = some 0 → (a < 44 + 2 ^ 31 ↔ t.Inside a)

theorem Madt.lt_of_byte {kind : UInt8} (h : t.bytes[a]? = some kind) : a < t.bytes.length :=
  (List.getElem?_eq_some_iff.mp h).1

theorem Madt.length_lt (t : Madt) : t.bytes.length < 2 ^ 32 := by
  rw [t.sized]
  exact t.length.toNat_lt

/-! ## The index -/

theorem ofInt_of_nonneg (h : i.toInt = k) : ofInt i = k := by
  have hhigh := i.toInt_lt
  have hvalue := ofInt_eq i
  omega

theorem entryOffset_eq (h : i.toInt = k) : entryOffset i = 44 + k := by
  have hhigh := i.toInt_lt
  rw [entryOffset, ofInt_of_nonneg h]
  omega

theorem Madt.bound_eq (h : 44 ≤ t.bytes.length) : t.bound = t.bytes.length - 44 := by
  have hlt := t.length_lt
  have hsized := t.sized
  unfold Madt.bound
  omega

/-- Behind an entry the index is that of the next one, or negative. -/
theorem toInt_advance (h : i.toInt = k) (hn : n < 256) :
    (i + Int32.ofNat n).toInt = if k + n < 2 ^ 31 then (k + n : ℤ) else (k + n : ℤ) - 2 ^ 32 := by
  have hhigh := i.toInt_lt
  rw [Int32.toInt_add, h, Int32.toInt_ofNat_of_lt (by omega)]
  split_ifs with hlt
  · exact Int.bmod_eq_of_le (by omega) (by omega)
  · rw [← Int.sub_bmod_right, Int.bmod_eq_of_le] <;> omega

/-- A negative index is beyond the bound. -/
theorem Madt.bound_le_negative (h : 44 ≤ t.bytes.length) (hneg : i.toInt < 0) : t.bound ≤ ofInt i := by
  have hlow := i.le_toInt
  have hlt := t.length_lt
  have hvalue := ofInt_eq i
  rw [Madt.bound_eq h]
  omega

/-! ## One entry -/

theorem Madt.byte_eq_ok {v : UInt8} : t.byte a = .ok v ↔ t.bytes[a]? = some v := by
  unfold Madt.byte
  cases t.bytes[a]? with
  | none => simp
  | some b => simp

theorem Madt.word_eq_ok {v : ℕ} : t.word a = .ok v ↔ a + 4 ≤ t.bytes.length ∧ field t.bytes a 4 = v := by
  unfold Madt.word
  split_ifs with h
  · simp [h]
  · simp [h]

/-- What the loop does at an entry. -/
structure Madt.Entered (t : Madt) (a : ℕ) (m m' : MadtState) : Prop where
  lt : a < t.bytes.length
  processor : t.bytes[a]? = some 0 →
    a + 3 < t.bytes.length ∧ ∃ c, t.Creates a c ∧ m'.processors = m.processors ++ [c]
  ioapic : t.bytes[a]? = some 1 → a + 8 ≤ t.bytes.length
  other : t.bytes[a]? ≠ some 0 → m'.processors = m.processors

theorem Madt.entered_of_madtEntry (h : i.toInt = k) (hentry : madtEntry hhdm t i m = .ok m') :
    t.Entered (44 + k) m m' := by
  unfold madtEntry at hentry
  rw [entryOffset_eq h] at hentry
  obtain ⟨kind, hkind, hentry⟩ := bind_eq_ok.mp hentry
  have hkind := byte_eq_ok.mp hkind
  split_ifs at hentry with hzero hone
  · obtain ⟨id, hid, hentry⟩ := bind_eq_ok.mp hentry
    have hid := byte_eq_ok.mp hid
    obtain rfl := Except.ok.inj hentry
    refine { lt := lt_of_byte hkind, processor := ?_, ioapic := ?_, other := ?_ }
    · exact fun _ => ⟨lt_of_byte hid, _, ⟨id, hid, rfl⟩, rfl⟩
    · simp [hkind, hzero]
    · simp [hkind, hzero]
  · obtain ⟨address, haddress, hentry⟩ := bind_eq_ok.mp hentry
    have hword := (word_eq_ok.mp haddress).1
    obtain rfl := Except.ok.inj hentry
    refine { lt := lt_of_byte hkind, processor := ?_, ioapic := ?_, other := ?_ }
    · simp [hkind, hone]
    · exact fun _ => hword
    · exact fun _ => rfl
  · obtain rfl := Except.ok.inj hentry
    refine { lt := lt_of_byte hkind, processor := ?_, ioapic := ?_, other := ?_ }
    · simp [hkind, hzero]
    · simp [hkind, hone]
    · exact fun _ => rfl

theorem Madt.exists_madtEntry (hhdm : ℕ) (h : i.toInt = k) (hlt : 44 + k < t.bytes.length)
    (hread : t.Readable (44 + k)) (m : MadtState) : ∃ m', madtEntry hhdm t i m = .ok m' := by
  obtain ⟨kind, hkind⟩ : ∃ kind, t.bytes[44 + k]? = some kind := ⟨_, List.getElem?_eq_getElem hlt⟩
  unfold madtEntry
  rw [entryOffset_eq h, byte_eq_ok.mpr hkind]
  by_cases hzero : kind = 0
  · have hid := hread.processor (hzero ▸ hkind)
    simp [bind, Except.bind, hzero, byte_eq_ok.mpr (List.getElem?_eq_getElem hid)]
  · by_cases hone : kind = 1
    · have hword := hread.ioapic (hone ▸ hkind)
      simp [bind, Except.bind, hone, word_eq_ok.mpr ⟨show 44 + k + 4 + 4 ≤ _ by omega, rfl⟩]
    · simp [bind, Except.bind, hzero, hone]

/-! ## The loop -/

/-- The loop goes from an entry on over the entries in the first `2 ^ 31` bytes: it can read each of them,
and makes a call for each of those of a processor, wherever it ends. -/
def Madt.Visits (t : Madt) (a : ℕ) (m m' : MadtState) : Prop :=
  (∀ b, a ≤ b → t.Entry b → b < t.bytes.length → b < 44 + 2 ^ 31 → t.Readable b) ∧
    ∃ entries calls, m'.processors = m.processors ++ calls ∧ entries.Pairwise (· < ·) ∧
      (∀ b, b ∈ entries ↔ a ≤ b ∧ t.Entry b ∧ t.bytes[b]? = some 0 ∧ b < 44 + 2 ^ 31) ∧
      List.Forall₂ t.Creates entries calls

/-- No entry is left. -/
theorem Madt.visits_end (h : t.bytes.length ≤ a ∨ 44 + 2 ^ 31 ≤ a) (m : MadtState) : t.Visits a m m := by
  refine ⟨?_, [], [], ?_, .nil, ?_, .nil⟩
  · intro b hab _ hlt hfirst
    omega
  · rw [List.append_nil]
  · intro b
    simp only [List.not_mem_nil, false_iff]
    rintro ⟨hab, -, hkind, hfirst⟩
    have hlt := lt_of_byte hkind
    omega

/-- **Step lemma**: an entry, and the entries behind it. -/
theorem Madt.Visits.step (hentry : t.Entry a) (hfirst : a < 44 + 2 ^ 31) (henter : t.Entered a m m')
    (hsize : t.size a = some n) (hrest : t.Visits (a + n) m' m'') : t.Visits a m m'' := by
  obtain ⟨hread, entries, calls, hcalls, hsorted, hmem, hall⟩ := hrest
  -- an entry of length 0 would have to be readable
  have hn : n ≠ 0 := by
    rintro rfl
    obtain ⟨n, hn, hne⟩ := (hread a le_rfl hentry henter.lt hfirst).size
    rw [hsize] at hn
    exact hne (Option.some.inj hn).symm
  have hsplit : ∀ b, t.Entry b → (a ≤ b ↔ b = a ∨ a + n ≤ b) := by
    intro b hb
    have horder := hentry.le_or_next_le hsize hb
    omega
  refine ⟨?_, ?_⟩
  · intro b hab hb hlt hbfirst
    rcases (hsplit b hb).mp hab with rfl | hnext
    · exact { size := ⟨n, hsize, hn⟩
              processor := fun hzero => (henter.processor hzero).1
              ioapic := henter.ioapic }
    · exact hread b hnext hb hlt hbfirst
  by_cases hzero : t.bytes[a]? = some 0
  · obtain ⟨-, c, hc, hprocessors⟩ := henter.processor hzero
    refine ⟨a :: entries, c :: calls, ?_, ?_, ?_, .cons hc hall⟩
    · rw [hcalls, hprocessors, List.append_assoc, List.singleton_append]
    · refine List.pairwise_cons.mpr ⟨?_, hsorted⟩
      intro b hb
      have hnext := ((hmem b).mp hb).1
      omega
    · intro b
      rw [List.mem_cons, hmem]
      constructor
      · rintro (rfl | ⟨hnext, hb⟩)
        · exact ⟨le_rfl, hentry, hzero, hfirst⟩
        · exact ⟨(hsplit b hb.1).mpr (.inr hnext), hb⟩
      · rintro ⟨hab, hb, hrest⟩
        exact ((hsplit b hb).mp hab).imp_right fun hnext => ⟨hnext, hb, hrest⟩
  · refine ⟨entries, calls, ?_, hsorted, ?_, hall⟩
    · rw [hcalls, henter.other hzero]
    · intro b
      rw [hmem]
      constructor
      · exact fun ⟨hnext, hb⟩ => ⟨(hsplit b hb.1).mpr (.inr hnext), hb⟩
      · rintro ⟨hab, hb, hkind, hbfirst⟩
        rcases (hsplit b hb).mp hab with rfl | hnext
        · exact absurd hkind hzero
        · exact ⟨hnext, hb, hkind, hbfirst⟩

/-- At a negative index the loop ends. -/
theorem Madt.loop_negative (h : 44 ≤ t.bytes.length) (hneg : i.toInt < 0) (m : MadtState) :
    madtLoop hhdm t (fuel + 1) i m = .ok m := by
  rw [madtLoop, if_neg (not_lt.mpr (bound_le_negative h hneg))]

/-- **Run lemma**: a loop that ends has gone over all entries from its own on. -/
theorem Madt.visits_of_loop (h : 44 ≤ t.bytes.length) (hi : i.toInt = k) (hentry : t.Entry (44 + k))
    (hloop : madtLoop hhdm t fuel i m = .ok m') : t.Visits (44 + k) m m' := by
  induction fuel generalizing i k m with
  | zero => exact nomatch hloop
  | succ fuel ih =>
    rw [madtLoop, ofInt_of_nonneg hi, bound_eq h] at hloop
    split_ifs at hloop with hlt
    · obtain ⟨next, hnext, hloop⟩ := bind_eq_ok.mp hloop
      obtain ⟨size, hsize, hloop⟩ := bind_eq_ok.mp hloop
      rw [entryOffset_eq hi] at hsize
      have hsize : t.size (44 + k) = some size.toNat := by
        rw [Madt.size, byte_eq_ok.mp hsize]
        rfl
      have hhigh := i.toInt_lt
      refine Visits.step hentry (by omega) (entered_of_madtEntry hi hnext) hsize ?_
      have hbyte := size.toNat_lt
      have hadvance := toInt_advance hi hbyte
      split_ifs at hadvance with hpositive
      · rw [Nat.add_assoc]
        apply ih (by exact_mod_cast hadvance) _ hloop
        rw [← Nat.add_assoc]
        exact hentry.next hsize
      · -- the index is negative, and the loop ends in the next round
        cases fuel with
        | zero => exact nomatch hloop
        | succ fuel =>
          rw [loop_negative h (by omega)] at hloop
          obtain rfl := Except.ok.inj hloop
          exact visits_end (.inr (by omega)) next
    · obtain rfl := Except.ok.inj hloop
      exact visits_end (.inl (by omega)) m

/-- **The loop ends** on a table that it can walk over: less of the table is left in each round. -/
theorem Madt.WellFormed.exists_loop (h : t.WellFormed) (hi : i.toInt = k) (hentry : t.Entry (44 + k))
    (m : MadtState) : ∃ fuel m', madtLoop hhdm t fuel i m = .ok m' := by
  induction hleft : t.bytes.length - k using Nat.strong_induction_on generalizing i k m with
  | _ left ih =>
    have hhigh := i.toInt_lt
    by_cases hlt : k < t.bytes.length - 44
    · have hread := h.readable (44 + k) hentry (by omega) (by omega)
      obtain ⟨n, hsize, hn⟩ := hread.size
      obtain ⟨size, hbyte, rfl⟩ := Option.map_eq_some_iff.mp hsize
      obtain ⟨next, hnext⟩ := exists_madtEntry hhdm hi (by omega) hread m
      obtain ⟨fuel, m', hloop⟩ : ∃ fuel m',
          madtLoop hhdm t fuel (i + Int32.ofNat size.toNat) next = .ok m' := by
        have hsmall := size.toNat_lt
        have hadvance := toInt_advance hi hsmall
        split_ifs at hadvance with hpositive
        · have hbehind : t.Entry (44 + (k + size.toNat)) := by
            rw [← Nat.add_assoc]
            exact hentry.next hsize
          exact ih (t.bytes.length - (k + size.toNat)) (by omega) (by exact_mod_cast hadvance) hbehind next
            rfl
        · exact ⟨1, next, loop_negative h.header (by omega) next⟩
      refine ⟨fuel + 1, m', ?_⟩
      rw [madtLoop, ofInt_of_nonneg hi, bound_eq h.header, if_pos hlt, hnext]
      simp only [bind, Except.bind, entryOffset_eq hi, byte_eq_ok.mpr hbyte]
      exact hloop
    · refine ⟨1, m, ?_⟩
      rw [madtLoop, ofInt_of_nonneg hi, bound_eq h.header, if_neg hlt]

/-- A table that is shorter than its own header is read outside of its bytes at once. -/
theorem Madt.header_of_loop (hloop : madtLoop hhdm t fuel 0 m = .ok m') : 44 ≤ t.bytes.length := by
  by_contra hshort
  have hzero : (0 : Int32).toInt = (0 : ℕ) := rfl
  cases fuel with
  | zero => exact nomatch hloop
  | succ fuel =>
    have hlt : ofInt 0 < t.bound := by
      have hsized := t.sized
      rw [ofInt_of_nonneg hzero]
      unfold Madt.bound
      omega
    rw [madtLoop, if_pos hlt] at hloop
    obtain ⟨next, hnext, -⟩ := bind_eq_ok.mp hloop
    have hlt := (entered_of_madtEntry hzero hnext).lt
    omega

/-! ## Complete walks -/

theorem Madt.WellFormed.complete (h : t.WellFormed) (hhdm ioapicAddress : ℕ) :
    t.Complete hhdm ioapicAddress := by
  have hstart : t.Entry (44 + 0) := begins_start ..
  obtain ⟨fuel, m, hloop⟩ := h.exists_loop (i := 0) rfl hstart { ioapicAddress, processors := [] }
  obtain ⟨-, entries, calls, hcalls, hsorted, hmem, hall⟩ := visits_of_loop h.header rfl hstart hloop
  refine ⟨fuel, m, entries, hloop, hsorted, ?_, ?_⟩
  · intro a
    rw [hmem]
    constructor
    · rintro ⟨-, hentry, hzero, hfirst⟩
      exact ⟨hentry, hzero, (h.processor a hentry hzero).mp hfirst⟩
    · rintro ⟨hentry, hzero, hinside⟩
      exact ⟨hentry.start_le, hentry, hzero, (h.processor a hentry hzero).mpr hinside⟩
  · rw [hcalls]
    exact hall

/-- A last entry that overruns the table is behind all processors of the table. -/
theorem Madt.Processor.lt_overrun (h : t.Processor b) (hentry : t.Entry a) (hsize : t.size a = some n)
    (hoverrun : t.bytes.length < a + n) : b ≤ a := by
  have hlt := lt_of_byte h.2.1
  have horder := hentry.le_or_next_le hsize h.1
  omega

theorem Madt.Complete.wellFormed (h : t.Complete hhdm ioapicAddress) : t.WellFormed := by
  obtain ⟨fuel, m, processors, hloop, hprocessorsSorted, hprocessors, hprocessorsAll⟩ := h
  have hheader := header_of_loop hloop
  obtain ⟨hread, entries, calls, hcalls, hsorted, hmem, hall⟩ :=
    visits_of_loop (k := 0) hheader rfl (begins_start ..) hloop
  have hlen : entries.length = processors.length := by
    rw [hall.length_eq, hprocessorsAll.length_eq, hcalls]
    rfl
  have hnodup : entries.Nodup := hsorted.imp Nat.ne_of_lt
  have hprocessorsNodup : processors.Nodup := hprocessorsSorted.imp Nat.ne_of_lt
  -- the loop visits no processor but those of the table, or all of them and one that overruns it
  have hperm : entries.Perm processors := by
    by_cases hsub : entries ⊆ processors
    · exact (List.subperm_of_subset hnodup hsub).perm_of_length_le hlen.ge
    · obtain ⟨a, ha, hnot⟩ : ∃ a ∈ entries, a ∉ processors := by simpa [List.subset_def] using hsub
      obtain ⟨hstart, hentry, hzero, hfirst⟩ := (hmem a).mp ha
      obtain ⟨n, hsize, -⟩ := (hread a hstart hentry (lt_of_byte hzero) hfirst).size
      have hoverrun : t.bytes.length < a + n := by
        by_contra hle
        exact hnot ((hprocessors a).mpr ⟨hentry, hzero, n, hsize, not_lt.mp hle⟩)
      have hsub : processors ⊆ entries := by
        intro b hb
        have hb := (hprocessors b).mp hb
        have hle := hb.lt_overrun hentry hsize hoverrun
        exact (hmem b).mpr ⟨hb.1.start_le, hb.1, hb.2.1, by omega⟩
      exact ((List.subperm_of_subset hprocessorsNodup hsub).perm_of_length_le hlen.le).symm
  refine { header := hheader, readable := ?_, processor := ?_ }
  · intro a hentry hlt hfirst
    exact hread a hentry.start_le hentry hlt hfirst
  · intro a hentry hzero
    have hiff : a ∈ entries ↔ a ∈ processors := hperm.mem_iff
    rw [hmem, hprocessors] at hiff
    constructor
    · exact fun hfirst => (hiff.mp ⟨hentry.start_le, hentry, hzero, hfirst⟩).2.2
    · exact fun hinside => (hiff.mpr ⟨hentry, hzero, hinside⟩).2.2.2

/-- **The walk over the MADT** is complete exactly on the tables that are as long as their header, whose
entries can be read and lead on, and whose processors lie inside of them. -/
theorem madt_complete_iff (hhdm ioapicAddress : ℕ) (t : Madt) :
    t.Complete hhdm ioapicAddress ↔ t.WellFormed := by
  constructor
  · exact Madt.Complete.wellFormed
  · exact fun h => h.complete hhdm ioapicAddress

/-- A table of one entry, whose length is 0. -/
def emptyEntry : Madt where
  length := 48
  bytes := List.replicate 48 0
  sized := rfl

/-- The walk over it does not end. -/
theorem empty_entry_walked_forever : ¬ emptyEntry.Complete 0 0 := by
  intro h
  have hread := h.wellFormed.readable 44 (begins_start ..) (by decide) (by decide)
  obtain ⟨n, hsize, hn⟩ := hread.size
  have hzero : emptyEntry.size 44 = some 0 := rfl
  rw [hzero] at hsize
  exact hn (Option.some.inj hsize).symm

end Cutesugar.Kernel
