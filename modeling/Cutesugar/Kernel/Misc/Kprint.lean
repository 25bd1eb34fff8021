import Cutesugar.Kernel.Misc.Formatters

/-!
# The numerals of `kprint` (`kernel/misc/sbd.c`)

`kprint` passes the `int` of a `%d` or `%x` on to `itoa`, which takes a number without a sign of 64 bits.
A negative argument becomes a number of 20 decimal or 16 hexadecimal digits there, more than its own numeral
has, so no other text makes up for it.

- `rendered`: what a format with its arguments stands for.
- `kprint_text_iff`: when `kprint` sends it.
-/

namespace Cutesugar.Kernel

open Libc

/-! ## Numerals -/

/-- The decimal numeral of an `int`. -/
def signedText (arg : Int32) : List UInt8 :=
  if arg.toInt < 0 then 45 :: digitText 10 arg.toInt.natAbs else digitText 10 arg.toInt.natAbs

/-- The hexadecimal numeral of the 32 bits of an `int`. -/
def hexText (arg : Int32) : List UInt8 := digitText 16 arg.toUInt32.toNat

/-- What a conversion stands for. -/
def numeral : Conversion → Int32 → List UInt8
  | .c, arg => [arg.toInt8.toUInt8]
  | .d, arg => signedText arg
  | .x, arg => hexText arg

/-- What a format with its arguments stands for. -/
def rendered : List Piece → List Int32 → List UInt8
  | [], _ => []
  | .literal c _ :: ps, args => c :: rendered ps args
  | .percent :: ps, args => 37 :: rendered ps args
  | .conversion k :: ps, arg :: args => numeral k arg ++ rendered ps args
  | .conversion _ :: _, [] => []

/-- The conversions of a format with their arguments. -/
def converted : List Piece → List Int32 → List (Conversion × Int32)
  | .literal _ _ :: ps, args | .percent :: ps, args => converted ps args
  | .conversion k :: ps, arg :: args => (k, arg) :: converted ps args
  | .conversion _ :: _, [] | [], _ => []

/-- The argument of a `%c` is not the NUL. -/
def NotNul (p : Conversion × Int32) : Prop := p.1 = .c → p.2.toInt8.toUInt8 ≠ 0

/-- The argument of a `%d` or `%x` is not negative. -/
def NotNegative (p : Conversion × Int32) : Prop := p.1 ≠ .c → 0 ≤ p.2.toInt

instance (p : Conversion × Int32) : Decidable (NotNul p) := inferInstanceAs (Decidable (_ → _))

instance (p : Conversion × Int32) : Decidable (NotNegative p) := inferInstanceAs (Decidable (_ → _))

variable {k : Conversion} {arg : Int32} {ps : List Piece} {args : List Int32} {rest : List UInt8}

theorem toNat_toUInt32 (arg : Int32) : arg.toUInt32.toNat = (arg.toInt % 2 ^ 32).toNat := by
  have hnat : arg.toUInt32.toNat = arg.toBitVec.toNat := rfl
  have hlt := arg.toBitVec.isLt
  rw [hnat, ← Int32.toInt_toBitVec, BitVec.toInt_eq_toNat_cond]
  split_ifs <;> omega

theorem length_signedText_le (arg : Int32) : (signedText arg).length ≤ 11 := by
  have hlow := arg.le_toInt
  have hhigh := arg.toInt_lt
  have hdigits : (digitText 10 arg.toInt.natAbs).length ≤ 10 :=
    (length_digitText_le (by decide) (by decide)).mpr (by omega)
  unfold signedText
  split_ifs
  · exact Nat.succ_le_succ hdigits
  · exact Nat.le_succ_of_le hdigits

theorem length_hexText_le (arg : Int32) : (hexText arg).length ≤ 8 :=
  (length_digitText_le (by decide) (by decide)).mpr arg.toUInt32.toNat_lt

/-- **A negative argument** has more digits than its numeral. -/
theorem length_numeral_lt (h : ¬ NotNegative (k, arg)) :
    (numeral k arg).length < (word k arg).length := by
  obtain ⟨hk, hneg⟩ := Classical.not_imp.mp h
  have hneg : arg.toInt < 0 := not_le.mp hneg
  have hlow := arg.le_toInt
  have hvalue := ofInt_eq arg
  cases k with
  | c => exact absurd rfl hk
  | d =>
    -- `2 ^ 64 - 2 ^ 31` and more
    have hmany : ¬ (digitText 10 (ofInt arg)).length ≤ 19 := by
      rw [length_digitText_le (by decide) (by decide)]
      omega
    have hfew := length_signedText_le arg
    simp only [numeral, word]
    omega
  | x =>
    have hmany : ¬ (digitText 16 (ofInt arg)).length ≤ 15 := by
      rw [length_digitText_le (by decide) (by decide)]
      omega
    have hfew := length_hexText_le arg
    simp only [numeral, word]
    omega

/-- **Any other argument** becomes its numeral. -/
theorem word_eq_numeral (h : NotNegative (k, arg)) : word k arg = numeral k arg := by
  have hhigh := arg.toInt_lt
  have hvalue := ofInt_eq arg
  cases k with
  | c => rfl
  | d =>
    have hpos : 0 ≤ arg.toInt := h (by simp)
    have hsame : ofInt arg = arg.toInt.natAbs := by omega
    rw [word, numeral, signedText, if_neg (by omega), hsame]
  | x =>
    have hpos : 0 ≤ arg.toInt := h (by simp)
    have hbits := toNat_toUInt32 arg
    have hsame : ofInt arg = arg.toUInt32.toNat := by omega
    rw [word, numeral, hexText, hsame]

/-- A word that is no NUL is its own text. -/
theorem cString_word (h : NotNul (k, arg)) : cString (word k arg) = word k arg := by
  apply cString_of_notMem
  rcases word_eq_or k arg with hnul | hnul
  · cases k with
    | c => exact absurd (List.cons.inj hnul).1 (h rfl)
    | d => exact zero_notMem_digitText (by decide) (by decide)
    | x => exact zero_notMem_digitText (by decide) (by decide)
  · exact hnul

/-! ## The text -/

/-- What is sent is not shorter than what the format stands for. -/
theorem length_rendered_le (hnul : ∀ p ∈ converted ps args, NotNul p) :
    (rendered ps args).length ≤ (expand ps args).length := by
  induction ps generalizing args with
  | nil => exact le_rfl
  | cons p ps ih =>
    cases p with
    | literal c h => exact Nat.succ_le_succ (ih hnul)
    | percent => exact Nat.succ_le_succ (ih hnul)
    | conversion k =>
      cases args with
      | nil => exact le_rfl
      | cons arg args =>
        obtain ⟨hword, hrest⟩ := List.forall_mem_cons.mp hnul
        have hnumeral : (numeral k arg).length ≤ (word k arg).length := by
          by_cases hneg : NotNegative (k, arg)
          · rw [word_eq_numeral hneg]
          · exact (length_numeral_lt hneg).le
        have htail := ih hrest
        rw [rendered, expand, cString_word hword, List.length_append, List.length_append]
        omega

theorem expand_eq_iff (hnul : ∀ p ∈ converted ps args, NotNul p) :
    expand ps args = rendered ps args ↔ ∀ p ∈ converted ps args, NotNegative p := by
  induction ps generalizing args with
  | nil => exact iff_of_true rfl (by cases args <;> simp [converted])
  | cons p ps ih =>
    cases p with
    | literal c h => exact (List.cons_inj_right c).trans (ih hnul)
    | percent => exact (List.cons_inj_right 37).trans (ih hnul)
    | conversion k =>
      cases args with
      | nil => exact iff_of_true rfl (by simp [converted])
      | cons arg args =>
        obtain ⟨hword, hrest⟩ := List.forall_mem_cons.mp hnul
        have htail := length_rendered_le hrest
        rw [expand, rendered, converted, List.forall_mem_cons, cString_word hword, ← ih hrest]
        by_cases hneg : NotNegative (k, arg)
        · rw [word_eq_numeral hneg, List.append_cancel_left_eq]
          exact (and_iff_right hneg).symm
        · -- the digits are too many, and what follows is not shorter
          have hmore := length_numeral_lt hneg
          refine iff_of_false (fun heq => ?_) fun h => hneg h.1
          have hlen := congrArg List.length heq
          rw [List.length_append, List.length_append] at hlen
          omega

/-- **`kprint` sends what the format stands for** exactly if no argument of a `%d` or `%x` is negative. -/
theorem kprint_text_iff (hargs : args.length = conversions ps)
    (hnul : ∀ p ∈ converted ps args, NotNul p) (rest : List UInt8) :
    kprint (text ps ++ 0 :: rest) args = .ok (rendered ps args) ↔
      ∀ p ∈ converted ps args, NotNegative p := by
  rw [kprint_eq hargs, Except.ok.injEq]
  exact expand_eq_iff hnul

/-- `%c%%%d %x` with a letter and two numbers. -/
theorem kprint_text_numbers :
    kprint [37, 99, 37, 37, 37, 100, 32, 37, 120, 0] [97, 42, 255] =
      .ok [97, 37, 52, 50, 32, 70, 70] :=
  (@kprint_text_iff [.conversion .c, .percent, .conversion .d, .literal 32 (by decide), .conversion .x]
    [97, 42, 255] rfl (by decide) []).mpr (by decide)

/-- `%d` and `%x` with -1. -/
theorem kprint_negative :
    Paired [37, 100, 32, 37, 120] ∧
    rendered [.conversion .d, .literal 32 (by decide), .conversion .x] [-1, -1] =
      [45, 49, 32, 70, 70, 70, 70, 70, 70, 70, 70] ∧
    kprint [37, 100, 32, 37, 120, 0] [-1, -1] =
      .ok [49, 56, 52, 52, 54, 55, 52, 52, 48, 55, 51, 55, 48, 57, 53, 53, 49, 54, 49, 53, 32,
        70, 70, 70, 70, 70, 70, 70, 70, 70, 70, 70, 70, 70, 70, 70, 70] := by
  refine ⟨?_, by decide, by decide⟩
  exact (paired_text [.conversion .d, .literal 32 (by decide), .conversion .x]).1

end Cutesugar.Kernel
