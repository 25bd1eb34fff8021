import Cutesugar.Libc.String
import Mathlib.Data.List.GetD
import Mathlib.Data.Nat.Digits.Lemmas

/-!
# Numbers in text (`itoa`)

The kernel and the library have four copies of `itoa`: it counts the digits of a number and writes
them into a buffer from the last one on, with no NUL behind. `digitText` is what it writes.

- `itoa_eq`: the digits are written if they fit.
- `itoa_converts`: in a buffer of 65 zeros the copies leave the numeral, from which the number is read back.
-/

namespace Cutesugar.Libc

/-- `"0123456789ABCDEF"`. -/
def hexDigits : List UInt8 := [48, 49, 50, 51, 52, 53, 54, 55, 56, 57, 65, 66, 67, 68, 69, 70]

/-- The loop that counts the digits; a 64-bit number has no more than 64. -/
def itoaLength (base : ℕ) : ℕ → ℕ → ℕ
  | 0, _ => 0
  | rounds + 1, count => if count / base = 0 then 1 else itoaLength base rounds (count / base) + 1

/-- The loop that writes them. -/
def itoaLoop (base : ℕ) : ℕ → ℕ → List UInt8 → Except Fault (List UInt8)
  | 0, _, _ => .error .overflow
  | len + 1, num, str =>
    if len < str.length then
      if num / base = 0 then .ok (str.set len (hexDigits.getD (num % base) 0))
      else itoaLoop base len (num / base) (str.set len (hexDigits.getD (num % base) 0))
    else .error .overflow

/-- `itoa`. -/
def itoa (num base : ℕ) (str : List UInt8) : Except Fault (List UInt8) :=
  itoaLoop base (itoaLength base 64 num) num str

/-- `itoaa` of `dprintf.c`. -/
def itoaa (num base : ℕ) (str : List UInt8) : Except Fault (List UInt8) := itoa num base str

/-- `pci_itoa` of `pci.c`. -/
def pciItoa (num base : ℕ) (str : List UInt8) : Except Fault (List UInt8) := itoa num base str

/-- The digits of a number, of 0 a single one. -/
def digitText (base num : ℕ) : List UInt8 :=
  ((if num = 0 then [0] else Nat.digits base num).map (hexDigits.getD · 0)).reverse

variable {base num rounds : ℕ} {str : List UInt8}

/-! ## Digits -/

/-- The last digit, and those in front of it. -/
theorem digitText_eq (hbase : 1 < base) (num : ℕ) : digitText base num =
    (if num / base = 0 then [] else digitText base (num / base)) ++ [hexDigits.getD (num % base) 0] := by
  rcases Nat.eq_zero_or_pos num with rfl | hpos
  · simp [digitText]
  · rw [digitText, if_neg hpos.ne', Nat.digits_def' hbase hpos, List.map_cons, List.reverse_cons]
    by_cases hzero : num / base = 0
    · rw [if_pos hzero, hzero, Nat.digits_zero]
      rfl
    · rw [if_neg hzero, digitText, if_neg hzero]

theorem digitText_ne_nil (base num : ℕ) : digitText base num ≠ [] := by
  unfold digitText
  split_ifs with hzero
  · simp
  · simpa [Nat.digits_eq_nil_iff_eq_zero] using hzero

/-- A number has as many digits as its size allows. -/
theorem length_digitText_le (hbase : 1 < base) (hrounds : 0 < rounds) :
    (digitText base num).length ≤ rounds ↔ num < base ^ rounds := by
  unfold digitText
  rw [List.length_reverse, List.length_map]
  split_ifs with hzero
  · subst hzero
    exact iff_of_true hrounds (Nat.pow_pos (Nat.zero_lt_of_lt hbase))
  · exact Nat.digits_length_le_iff hbase num

/-- The digits are digits. -/
theorem mem_hexDigits_of_mem_digitText (hbase : 1 < base) (hle : base ≤ 16) {c : UInt8}
    (hc : c ∈ digitText base num) : c ∈ hexDigits := by
  have hgetD {d : ℕ} (hd : d < base) : hexDigits.getD d 0 ∈ hexDigits := by
    have hlt : d < hexDigits.length := hd.trans_le hle
    rw [List.getD_eq_getElem _ _ hlt]
    exact List.getElem_mem hlt
  obtain ⟨d, hd, rfl⟩ := List.mem_map.mp (List.mem_reverse.mp hc)
  split_ifs at hd with hzero
  · rw [List.mem_singleton.mp hd]
    exact hgetD (Nat.zero_lt_of_lt hbase)
  · exact hgetD (Nat.digits_lt_base hbase hd)

theorem zero_notMem_digitText (hbase : 1 < base) (hle : base ≤ 16) : 0 ∉ digitText base num :=
  fun h => absurd (mem_hexDigits_of_mem_digitText hbase hle h) (by decide)

/-- The number is read back from its digits. -/
theorem ofDigits_digitText (hbase : 1 < base) (hle : base ≤ 16) (num : ℕ) :
    Nat.ofDigits base ((digitText base num).reverse.map (hexDigits.idxOf ·)) = num := by
  have hdigit : ∀ d < 16, hexDigits.idxOf (hexDigits.getD d 0) = d := by decide
  have hback : ∀ d ∈ (if num = 0 then [0] else Nat.digits base num),
      ((hexDigits.idxOf ·) ∘ (hexDigits.getD · 0)) d = d := by
    intro d hd
    split_ifs at hd with hzero
    · rw [List.mem_singleton.mp hd]
      rfl
    · exact hdigit d ((Nat.digits_lt_base hbase hd).trans_le hle)
  rw [digitText, List.reverse_reverse, List.map_map, List.map_congr_left hback, List.map_id']
  split_ifs with hzero
  · rw [hzero]
    rfl
  · exact Nat.ofDigits_digits base num

/-- Different numbers have different digits. -/
theorem digitText_injective (hbase : 1 < base) (hle : base ≤ 16) : Function.Injective (digitText base) := by
  intro m n h
  rw [← ofDigits_digitText hbase hle m, h, ofDigits_digitText hbase hle]

/-! ## The loops -/

theorem itoaLength_eq (hbase : 1 < base) (hnum : num < base ^ rounds) (hrounds : 0 < rounds) :
    itoaLength base rounds num = (digitText base num).length := by
  induction rounds generalizing num with
  | zero => exact absurd hrounds (Nat.lt_irrefl 0)
  | succ rounds ih =>
    rw [itoaLength, digitText_eq hbase, List.length_append, List.length_singleton]
    split_ifs with hzero
    · rfl
    · have hdiv : num / base < base ^ rounds := by
        rw [Nat.div_lt_iff_lt_mul (Nat.zero_lt_of_lt hbase), ← pow_succ]
        exact hnum
      rw [ih hdiv]
      rcases Nat.eq_zero_or_pos rounds with rfl | hpos
      · exact absurd (Nat.lt_one_iff.mp hdiv) hzero
      · exact hpos

/-- **What is written**: the digits, over what the buffer held at its start. -/
theorem itoaLoop_eq (hbase : 1 < base) {len : ℕ} (hlen : (digitText base num).length = len)
    (hfits : len ≤ str.length) : itoaLoop base len num str = .ok (digitText base num ++ str.drop len) := by
  induction len generalizing num str with
  | zero => exact absurd (List.eq_nil_of_length_eq_zero hlen) (digitText_ne_nil base num)
  | succ len ih =>
    have hlt : len < str.length := hfits
    rw [digitText_eq hbase, List.length_append, List.length_singleton] at hlen
    rw [itoaLoop, if_pos hlt, digitText_eq hbase num]
    have hdrop : (str.set len (hexDigits.getD (num % base) 0)).drop len =
        hexDigits.getD (num % base) 0 :: str.drop (len + 1) := by
      rw [List.drop_eq_getElem_cons (by rwa [List.length_set]), List.getElem_set_self,
        List.drop_set_of_lt (Nat.lt_succ_self len)]
    split_ifs at hlen ⊢ with hzero
    · obtain rfl : len = 0 := by simpa using hlen.symm
      rw [List.drop_zero] at hdrop
      rw [hdrop]
      rfl
    · rw [ih (Nat.succ.inj hlen) (by rw [List.length_set]; exact hlt.le), hdrop, List.append_assoc]
      rfl

/-- **`itoa`** writes the digits if they fit. -/
theorem itoa_eq (hbase : 1 < base) (hnum : num < 2 ^ 64) (str : List UInt8) : itoa num base str =
    if (digitText base num).length ≤ str.length then
      .ok (digitText base num ++ str.drop (digitText base num).length)
    else .error .overflow := by
  have hpow : num < base ^ 64 := hnum.trans_le (Nat.pow_le_pow_left hbase 64)
  rw [itoa, itoaLength_eq hbase hpow (by decide)]
  split_ifs with hfits
  · exact itoaLoop_eq hbase rfl hfits
  · -- the first digit written is the last one
    obtain ⟨len, hlen⟩ := Nat.exists_eq_succ_of_ne_zero
      (List.length_pos_iff.mpr (digitText_ne_nil base num)).ne'
    rw [hlen, itoaLoop, if_neg]
    omega

/-! ## The numeral -/

/-- The number that a text says in a base, its first digit the most significant one. -/
def readNumeral (base : ℕ) (text : List UInt8) : ℕ :=
  text.foldl (fun value c => value * base + hexDigits.idxOf c) 0

/-- A buffer holds the numeral of a number, and a NUL behind. -/
structure IsNumeral (base num : ℕ) (str : List UInt8) : Prop where
  terminated : 0 ∈ str
  digits : ∀ c ∈ cString str, c ∈ hexDigits.take base
  places : ∀ i < (cString str).length,
    (cString str).reverse.getD i 0 = hexDigits.getD (num / base ^ i % base) 0
  zero : num = 0 → cString str = [48]
  leading : num ≠ 0 → ∃ c cs, cString str = c :: cs ∧ c ≠ 48
  value : readNumeral base (cString str) = num

/-- A function converts to a base: in a buffer of 65 zeros it leaves the numeral, and different numbers get
different strings. -/
structure Converts (f : ℕ → ℕ → List UInt8 → Except Fault (List UInt8)) (base : ℕ) : Prop where
  numeral : ∀ num : UInt64, ∃ str, f num.toNat base (List.replicate 65 0) = .ok str ∧ str.length = 65 ∧
    IsNumeral base num.toNat str
  injective : ∀ (m n : UInt64) str str', f m.toNat base (List.replicate 65 0) = .ok str →
    f n.toNat base (List.replicate 65 0) = .ok str' → cString str = cString str' → m = n

theorem readNumeral_digitText (hbase : 1 < base) (hle : base ≤ 16) (num : ℕ) :
    readNumeral base (digitText base num) = num := by
  have hback := ofDigits_digitText hbase hle num
  rw [Nat.ofDigits_eq_foldr, List.foldr_map, List.foldr_reverse] at hback
  calc readNumeral base (digitText base num)
      = (digitText base num).foldl (fun value c => hexDigits.idxOf c + base * value) 0 := by
        unfold readNumeral
        congr 1
        funext value c
        rw [Nat.mul_comm, Nat.add_comm]
    _ = num := hback

/-- The digits of a base are its first ones. -/
theorem mem_take_of_mem_digitText (hbase : 1 < base) (hle : base ≤ 16) {c : UInt8}
    (hc : c ∈ digitText base num) : c ∈ hexDigits.take base := by
  have hget {d : ℕ} (hd : d < base) : hexDigits.getD d 0 ∈ hexDigits.take base := by
    have hlt : d < hexDigits.length := hd.trans_le hle
    rw [List.getD_eq_getElem _ _ hlt]
    exact List.mem_take_iff_getElem.mpr ⟨d, lt_min hd hlt, rfl⟩
  obtain ⟨d, hd, rfl⟩ := List.mem_map.mp (List.mem_reverse.mp hc)
  split_ifs at hd with hzero
  · rw [List.mem_singleton.mp hd]
    exact hget (Nat.zero_lt_of_lt hbase)
  · exact hget (Nat.digits_lt_base hbase hd)

/-- The digit at a place. -/
theorem getD_reverse_digitText (hbase : 1 < base) {i : ℕ} (hi : i < (digitText base num).length) :
    (digitText base num).reverse.getD i 0 = hexDigits.getD (num / base ^ i % base) 0 := by
  unfold digitText at hi ⊢
  rw [List.length_reverse, List.length_map] at hi
  rw [List.reverse_reverse, List.getD_eq_getElem _ _ (by rwa [List.length_map]), List.getElem_map]
  split_ifs at hi ⊢ with hzero
  · obtain rfl : i = 0 := by simpa using hi
    have hdigit : num / base ^ 0 % base = 0 := by rw [hzero, Nat.zero_div, Nat.zero_mod]
    rw [hdigit]
    rfl
  · rw [← Nat.getD_digits num i hbase, List.getD_eq_getElem _ _ hi]

/-- The first digit of a number that is not zero is none. -/
theorem digitText_leading (hbase : 1 < base) (hle : base ≤ 16) (hnum : num ≠ 0) :
    ∃ c cs, digitText base num = c :: cs ∧ c ≠ 48 := by
  have hdigit : ∀ d < 16, d ≠ 0 → hexDigits.getD d 0 ≠ 48 := by decide
  have hne : Nat.digits base num ≠ [] := Nat.digits_ne_nil_iff_ne_zero.mpr hnum
  refine ⟨hexDigits.getD ((Nat.digits base num).getLast hne) 0,
    ((Nat.digits base num).dropLast.map (hexDigits.getD · 0)).reverse, ?_, ?_⟩
  · rw [digitText, if_neg hnum]
    conv_lhs => rw [← List.dropLast_append_getLast hne]
    rw [List.map_append, List.reverse_append]
    rfl
  · apply hdigit
    · exact (Nat.digits_lt_base hbase (List.getLast_mem hne)).trans_le hle
    · exact Nat.getLast_digit_ne_zero base hnum

theorem isNumeral_digitText (hbase : 1 < base) (hle : base ≤ 16) (num : ℕ) (rest : List UInt8) :
    IsNumeral base num (digitText base num ++ 0 :: rest) := by
  have htext : cString (digitText base num ++ 0 :: rest) = digitText base num :=
    cString_append (zero_notMem_digitText hbase hle)
  refine
    { terminated := by simp
      digits := ?_, places := ?_, zero := ?_, leading := ?_, value := ?_ }
  · rw [htext]
    exact fun c hc => mem_take_of_mem_digitText hbase hle hc
  · rw [htext]
    exact fun i hi => getD_reverse_digitText hbase hi
  · rw [htext]
    rintro rfl
    rfl
  · rw [htext]
    exact digitText_leading hbase hle
  · rw [htext]
    exact readNumeral_digitText hbase hle num

/-- What is in the buffer behind a call. -/
theorem itoa_zeros (hbase : 1 < base) (num : UInt64) :
    ∃ rest, (digitText base num.toNat ++ 0 :: rest).length = 65 ∧
      itoa num.toNat base (List.replicate 65 0) = .ok (digitText base num.toNat ++ 0 :: rest) := by
  have hlen : (digitText base num.toNat).length ≤ 64 :=
    (length_digitText_le hbase (by decide)).mpr (num.toNat_lt.trans_le (Nat.pow_le_pow_left hbase 64))
  have hfits : (digitText base num.toNat).length ≤ (List.replicate 65 (0 : UInt8)).length := by
    rw [List.length_replicate]
    omega
  have hdrop : (List.replicate 65 (0 : UInt8)).drop (digitText base num.toNat).length =
      0 :: List.replicate (64 - (digitText base num.toNat).length) 0 := by
    rw [List.drop_replicate, ← List.replicate_succ]
    congr 1
    omega
  refine ⟨List.replicate (64 - (digitText base num.toNat).length) 0, ?_, ?_⟩
  · rw [List.length_append, List.length_cons, List.length_replicate]
    omega
  · rw [itoa_eq hbase num.toNat_lt, if_pos hfits, hdrop]

theorem converts_itoa (hbase : 2 ≤ base) (hle : base ≤ 16) : Converts itoa base where
  numeral num := by
    obtain ⟨rest, hlen, hcall⟩ := itoa_zeros hbase num
    exact ⟨_, hcall, hlen, isNumeral_digitText hbase hle num.toNat rest⟩
  injective m n str str' hm hn heq := by
    obtain ⟨rest, -, hcall⟩ := itoa_zeros hbase m
    obtain ⟨rest', -, hcall'⟩ := itoa_zeros hbase n
    obtain rfl := Except.ok.inj (hcall.symm.trans hm)
    obtain rfl := Except.ok.inj (hcall'.symm.trans hn)
    -- both numbers are read back from the one string
    have hread := (isNumeral_digitText hbase hle m.toNat rest).value
    rw [heq, (isNumeral_digitText hbase hle n.toNat rest').value] at hread
    exact UInt64.toNat_inj.mp hread.symm

/-- **Digit conversion**: `itoa` and its copies convert to every base that they have digits for. -/
theorem itoa_converts (hbase : 2 ≤ base) (hle : base ≤ 16) :
    Converts itoa base ∧ Converts itoaa base ∧ Converts pciItoa base :=
  ⟨converts_itoa hbase hle, converts_itoa hbase hle, converts_itoa hbase hle⟩

/-- Decimal numbers, as the names of PCI devices have them. -/
theorem itoa_converts_ten : Converts itoa 10 ∧ Converts itoaa 10 ∧ Converts pciItoa 10 :=
  itoa_converts (by decide) (by decide)

end Cutesugar.Libc
