import Cutesugar.Libc.Itoa

/-!
# Formatted output

The kernel and the library have three functions that format text: the library's `fprintf`, and `kprint`
and `dprintf` of the kernel. Two of them are one loop here: they differ in what becomes of a character,
and in whether `num_str`, the buffer for the digits, is cleared behind a conversion.

- `formatLoop`: the loop over the format string.
- `Piece`: a format string of literals, `%%` and conversions, and `expand`: the text it stands for.
- `formatLoop_eq`: what the loop writes for such a string.
- `stale_eq_iff`: when the text is right although the buffer is not cleared.
-/

namespace Cutesugar.Libc

/-! ## The loop -/

/-- The letters behind `%` that take an argument. -/
inductive Conversion
  | c
  | d
  | x
  deriving DecidableEq

def Conversion.letter : Conversion → UInt8
  | .c => 99
  | .d => 100
  | .x => 120

/-- The cases of the `switch`, besides `%`. -/
def Conversion.ofLetter (c : UInt8) : Option Conversion :=
  if c = 99 then some .c else if c = 100 then some .d else if c = 120 then some .x else none

/-- `(uint64_t) arg` for an `int`. -/
def ofInt (arg : Int32) : ℕ := arg.toInt64.toUInt64.toNat

/-- What a conversion leaves in `num_str`. -/
def Conversion.write : Conversion → Int32 → List UInt8 → Except Fault (List UInt8)
  | .c, arg, numStr => if numStr.length = 0 then .error .overflow else .ok (numStr.set 0 arg.toInt8.toUInt8)
  | .d, arg, numStr => itoa (ofInt arg) 10 numStr
  | .x, arg, numStr => itoa (ofInt arg) 16 numStr

/-- `va_arg`. -/
def vaArg : List Int32 → Except Fault (Int32 × List Int32)
  | [] => .error .overread
  | arg :: args => .ok (arg, args)

/-- The characters that `putstr` sends. -/
def putstr : List UInt8 → Except Fault (List UInt8)
  | [] => .error .overread
  | c :: str => if c = 0 then .ok [] else (c :: ·) <$> putstr str

/-- `char num_str[65] = {0}`. -/
def clearNumStr : List UInt8 := List.replicate 65 0

/-- The loop over the format string, with what becomes of a character of it, the function that puts the
text of an argument, and whether `num_str` is cleared behind each conversion. -/
def formatLoop {α : Type} (literal : UInt8 → α) (put : List UInt8 → Except Fault (List α)) (clear : Bool) :
    List UInt8 → List Int32 → List UInt8 → Except Fault (List α)
  | [], _, _ => .error .overread
  | c :: str, args, numStr =>
    if c = 0 then .ok []
    else if c = 37 then
      match str with
      | [] => .error .overread
      | c :: str =>
        if c = 37 then (literal c :: ·) <$> formatLoop literal put clear str args numStr
        else match Conversion.ofLetter c with
          | some k => do
            let (arg, args) ← vaArg args
            let numStr ← k.write arg numStr
            let text ← put numStr
            let rest ← formatLoop literal put clear str args (if clear then clearNumStr else numStr)
            .ok (text ++ rest)
          -- a letter without a case is sent as it is
          | none => (literal c :: ·) <$> formatLoop literal put clear str args numStr
    else (literal c :: ·) <$> formatLoop literal put clear str args numStr

/-- A result with something put in front of it. -/
theorem map_eq_ok {α β : Type} {f : α → β} {x : Except Fault α} {b : β} :
    f <$> x = .ok b ↔ ∃ a, x = .ok a ∧ f a = b := by
  cases x with
  | error e => exact ⟨fun h => (nomatch h), fun ⟨_, h, _⟩ => (nomatch h)⟩
  | ok a =>
    constructor
    · exact fun h => ⟨a, rfl, Except.ok.inj h⟩
    · rintro ⟨a', ha, rfl⟩
      rw [Except.ok.inj ha]
      rfl

/-! ## Formats -/

/-- A piece of a format string. -/
inductive Piece
  | literal (c : UInt8) (h : c ≠ 0 ∧ c ≠ 37)
  | percent
  | conversion (k : Conversion)

def Piece.text : Piece → List UInt8
  | .literal c _ => [c]
  | .percent => [37, 37]
  | .conversion k => [37, k.letter]

/-- The format string. -/
def text (ps : List Piece) : List UInt8 := ps.flatMap Piece.text

/-- How many arguments it takes. -/
def conversions : List Piece → ℕ
  | [] => 0
  | .literal _ _ :: ps | .percent :: ps => conversions ps
  | .conversion _ :: ps => conversions ps + 1

/-- Each `%` is followed by one of the four letters. -/
def Paired : List UInt8 → Prop
  | [] => True
  | c :: str =>
    if c = 37 then
      match str with
      | [] => False
      | c :: str => (c = 37 ∨ (Conversion.ofLetter c).isSome) ∧ Paired str
    else Paired str

/-- What an argument is turned into. -/
def word : Conversion → Int32 → List UInt8
  | .c, arg => [arg.toInt8.toUInt8]
  | .d, arg => digitText 10 (ofInt arg)
  | .x, arg => digitText 16 (ofInt arg)

/-- What the arguments are turned into, in this order. -/
def words : List Piece → List Int32 → List (List UInt8)
  | .literal _ _ :: ps, args | .percent :: ps, args => words ps args
  | .conversion k :: ps, arg :: args => word k arg :: words ps args
  | .conversion _ :: _, [] | [], _ => []

/-- The text that a format stands for; a character that is NUL is no text. -/
def expand : List Piece → List Int32 → List UInt8
  | [], _ => []
  | .literal c _ :: ps, args => c :: expand ps args
  | .percent :: ps, args => 37 :: expand ps args
  | .conversion k :: ps, arg :: args => cString (word k arg) ++ expand ps args
  | .conversion _ :: _, [] => []

variable {k : Conversion} {arg : Int32} {args : List Int32} {ps : List Piece}
variable {numStr str rest : List UInt8}

theorem text_cons (p : Piece) (ps : List Piece) : text (p :: ps) = p.text ++ text ps :=
  List.flatMap_cons ..

@[simp] theorem ofLetter_letter (k : Conversion) : Conversion.ofLetter k.letter = some k := by
  cases k <;> rfl

theorem letter_of_ofLetter {c : UInt8} (h : Conversion.ofLetter c = some k) : c = k.letter := by
  unfold Conversion.ofLetter at h
  split_ifs at h with h₁ h₂ h₃
  all_goals
    obtain rfl := Option.some.inj h
    assumption

theorem letter_ne (k : Conversion) : k.letter ≠ 0 ∧ k.letter ≠ 37 := by
  cases k <;> decide

theorem paired_cons {c : UInt8} (h : c ≠ 37) : Paired (c :: str) ↔ Paired str := by
  rw [Paired.eq_def]
  simp [h]

/-- The strings of pieces are those without NUL in which each `%` is followed by a letter. -/
theorem paired_text (ps : List Piece) : Paired (text ps) ∧ 0 ∉ text ps := by
  induction ps with
  | nil => exact ⟨trivial, List.not_mem_nil⟩
  | cons p ps ih =>
    obtain ⟨hpaired, hzero⟩ := ih
    rw [text_cons]
    cases p with
    | literal c h =>
      rw [Piece.text, List.singleton_append, paired_cons h.2]
      refine ⟨hpaired, ?_⟩
      simpa [hzero] using h.1.symm
    | percent => exact ⟨⟨.inl rfl, hpaired⟩, by simpa [Piece.text] using hzero⟩
    | conversion k =>
      refine ⟨⟨.inr (by simp), hpaired⟩, ?_⟩
      simpa [Piece.text, hzero] using (letter_ne k).1.symm

theorem exists_text (hpaired : Paired str) (hzero : 0 ∉ str) : ∃ ps, text ps = str := by
  induction str using Paired.induct with
  | case1 => exact ⟨[], rfl⟩
  | case2 => exact hpaired.elim
  | case3 c str ih =>
    obtain ⟨hletter, hpaired⟩ := hpaired
    obtain ⟨ps, rfl⟩ := ih hpaired fun hmem => hzero (by simp [hmem])
    rcases hletter with rfl | hletter
    · exact ⟨.percent :: ps, rfl⟩
    · obtain ⟨k, hk⟩ := Option.isSome_iff_exists.mp hletter
      rw [letter_of_ofLetter hk]
      exact ⟨.conversion k :: ps, rfl⟩
  | case4 c str h ih =>
    rw [paired_cons h] at hpaired
    obtain ⟨ps, rfl⟩ := ih hpaired fun hmem => hzero (List.mem_cons_of_mem c hmem)
    have hc : c ≠ 0 := fun hc => hzero (hc ▸ List.mem_cons_self ..)
    exact ⟨.literal c ⟨hc, h⟩ :: ps, rfl⟩

/-! ## Words -/

theorem ofInt_lt (arg : Int32) : ofInt arg < 2 ^ 64 := UInt64.toNat_lt _

/-- The conversion to 64 bits repeats the sign. -/
theorem ofInt_eq (arg : Int32) : ofInt arg = (arg.toInt % 2 ^ 64).toNat := by
  rw [ofInt, ← Int32.toInt_toInt64]
  have hnat : arg.toInt64.toUInt64.toNat = arg.toInt64.toBitVec.toNat := rfl
  have hlt := arg.toInt64.toBitVec.isLt
  rw [hnat, ← Int64.toInt_toBitVec, BitVec.toInt_eq_toNat_cond]
  split_ifs <;> omega

theorem length_word_le (k : Conversion) (arg : Int32) : (word k arg).length ≤ 20 := by
  have hlt := ofInt_lt arg
  cases k with
  | c => simp [word]
  | d => exact (length_digitText_le (by decide) (by decide)).mpr (by omega)
  | x => exact (length_digitText_le (by decide) (by decide)).mpr (by omega)

theorem length_word_pos (k : Conversion) (arg : Int32) : 0 < (word k arg).length := by
  rw [List.length_pos_iff]
  cases k with
  | c => exact List.cons_ne_nil _ _
  | d => exact digitText_ne_nil 10 _
  | x => exact digitText_ne_nil 16 _

/-- A word is a character that is NUL, or it has none. -/
theorem word_eq_or (k : Conversion) (arg : Int32) : word k arg = [0] ∨ 0 ∉ word k arg := by
  cases k with
  | c =>
    by_cases h : arg.toInt8.toUInt8 = 0
    · exact .inl (congrArg ([·]) h)
    · exact .inr fun hmem => h (List.mem_singleton.mp hmem).symm
  | d => exact .inr (zero_notMem_digitText (by decide) (by decide))
  | x => exact .inr (zero_notMem_digitText (by decide) (by decide))

/-! ## The buffer -/

/-- `num_str` has room for a NUL behind every word. -/
structure Buffer (numStr : List UInt8) : Prop where
  length : numStr.length = 65
  last : numStr[64]? = some 0

theorem buffer_clear : Buffer clearNumStr := ⟨rfl, rfl⟩

/-- What a conversion leaves. -/
def overlay (numStr : List UInt8) (w : List UInt8) : List UInt8 := w ++ numStr.drop w.length

theorem Buffer.overlay (h : Buffer numStr) (k : Conversion) (arg : Int32) :
    Buffer (overlay numStr (word k arg)) := by
  have hle := length_word_le k arg
  have hlength := h.length
  constructor
  · rw [Libc.overlay, List.length_append, List.length_drop]
    omega
  · rw [Libc.overlay, List.getElem?_append_right (by omega), List.getElem?_drop,
      Nat.add_sub_cancel' (by omega)]
    exact h.last

theorem Buffer.zero_mem (h : Buffer numStr) : 0 ∈ numStr := List.mem_of_getElem? h.last

theorem Buffer.write_eq (h : Buffer numStr) (k : Conversion) (arg : Int32) :
    k.write arg numStr = .ok (Libc.overlay numStr (word k arg)) := by
  have hle := length_word_le k arg
  have hlength := h.length
  cases k with
  | c =>
    obtain ⟨c, cs, rfl⟩ : ∃ c cs, numStr = c :: cs :=
      List.exists_cons_of_length_pos (by omega)
    rfl
  | d =>
    rw [Conversion.write, itoa_eq (by decide) (ofInt_lt arg), if_pos (by simp only [word] at hle; omega)]
    rfl
  | x =>
    rw [Conversion.write, itoa_eq (by decide) (ofInt_lt arg), if_pos (by simp only [word] at hle; omega)]
    rfl

theorem putstr_eq (h : 0 ∈ str) : putstr str = .ok (cString str) := by
  induction str with
  | nil => exact absurd h List.not_mem_nil
  | cons c str ih =>
    rw [putstr]
    split_ifs with hc
    · subst hc
      rfl
    · have hmem : 0 ∈ str := (List.mem_cons.mp h).resolve_left (Ne.symm hc)
      rw [ih hmem, cString_cons hc]
      rfl

/-! ## What the loop writes -/

/-- What becomes of the pieces of a format, with the buffer. -/
def formatted {α : Type} (literal converted : UInt8 → α) (clear : Bool) :
    List Piece → List Int32 → List UInt8 → List α
  | [], _, _ => []
  | .literal c _ :: ps, args, numStr => literal c :: formatted literal converted clear ps args numStr
  | .percent :: ps, args, numStr => literal 37 :: formatted literal converted clear ps args numStr
  | .conversion k :: ps, arg :: args, numStr =>
    (cString (overlay numStr (word k arg))).map converted ++
      formatted literal converted clear ps args
        (if clear then clearNumStr else overlay numStr (word k arg))
  | .conversion _ :: _, [], _ => []

section Loop

variable {α : Type} {literal converted : UInt8 → α} {clear : Bool}
variable {put : List UInt8 → Except Fault (List α)}

theorem formatLoop_zero : formatLoop literal put clear (0 :: str) args numStr = .ok [] := by
  cases str <;> rfl

theorem formatLoop_other {c : UInt8} (hzero : c ≠ 0) (h : c ≠ 37) :
    formatLoop literal put clear (c :: str) args numStr =
      (literal c :: ·) <$> formatLoop literal put clear str args numStr := by
  rw [formatLoop.eq_def]
  simp [hzero, h]

theorem formatLoop_percent : formatLoop literal put clear (37 :: 37 :: str) args numStr =
    (literal 37 :: ·) <$> formatLoop literal put clear str args numStr := rfl

theorem formatLoop_conversion (hput : ∀ bs, 0 ∈ bs → put bs = .ok ((cString bs).map converted))
    (hbuffer : Buffer numStr) :
    formatLoop literal put clear (37 :: k.letter :: str) (arg :: args) numStr =
      ((cString (overlay numStr (word k arg))).map converted ++ ·) <$> formatLoop literal put clear
        str args (if clear then clearNumStr else overlay numStr (word k arg)) := by
  have htext := hput _ (hbuffer.overlay k arg).zero_mem
  rw [formatLoop.eq_def]
  simp only [if_false, if_true, (letter_ne k).2, ofLetter_letter, vaArg, hbuffer.write_eq]
  rw [if_neg (by decide)]
  change (put (overlay numStr (word k arg)) >>= fun text => _) = _
  rw [htext]
  change (formatLoop literal put clear str args _ >>= fun rest => _) = _
  cases formatLoop literal put clear str args
    (if clear then clearNumStr else overlay numStr (word k arg)) with
  | error f => rfl
  | ok out => rfl

/-- **The loop** on a format with as many arguments as it takes. -/
theorem formatLoop_eq (hput : ∀ bs, 0 ∈ bs → put bs = .ok ((cString bs).map converted))
    (hargs : args.length = conversions ps) (hbuffer : Buffer numStr) :
    formatLoop literal put clear (text ps ++ 0 :: rest) args numStr =
      .ok (formatted literal converted clear ps args numStr) := by
  induction ps generalizing args numStr with
  | nil => exact formatLoop_zero
  | cons p ps ih =>
    rw [text_cons, List.append_assoc]
    cases p with
    | literal c h =>
      rw [Piece.text, List.singleton_append, formatLoop_other h.1 h.2, ih hargs hbuffer]
      rfl
    | percent =>
      change formatLoop literal put clear (37 :: 37 :: (text ps ++ 0 :: rest)) args numStr = _
      rw [formatLoop_percent, ih hargs hbuffer]
      rfl
    | conversion k =>
      obtain ⟨arg, args, rfl⟩ := List.exists_cons_of_length_eq_add_one hargs
      change formatLoop literal put clear (37 :: k.letter :: (text ps ++ 0 :: rest)) _ numStr = _
      rw [formatLoop_conversion hput hbuffer, ih (Nat.succ.inj hargs)]
      · rfl
      · split_ifs
        · exact buffer_clear
        · exact hbuffer.overlay k arg

/-- What becomes of the characters does not matter for the loop. -/
theorem map_formatted {β : Type} (f : α → β) (ps : List Piece) (args : List Int32)
    (numStr : List UInt8) : (formatted literal converted clear ps args numStr).map f =
      formatted (f ∘ literal) (f ∘ converted) clear ps args numStr := by
  induction ps generalizing args numStr with
  | nil => rfl
  | cons p ps ih =>
    cases p with
    | literal c h => exact congrArg (f (literal c) :: ·) (ih args numStr)
    | percent => exact congrArg (f (literal 37) :: ·) (ih args numStr)
    | conversion k =>
      cases args with
      | nil => rfl
      | cons arg args =>
        rw [formatted, formatted, List.map_append, List.map_map, ih]

/-- Conversions without a text leave the characters of the format. -/
theorem formatted_of_nul {ps : List Piece} {args : List Int32} (h : ∀ w ∈ words ps args, w = [0])
    (numStr : List UInt8) :
    formatted literal converted clear ps args numStr = (expand ps args).map literal := by
  induction ps generalizing args numStr with
  | nil => rfl
  | cons p ps ih =>
    cases p with
    | literal c hc => exact congrArg (literal c :: ·) (ih h numStr)
    | percent => exact congrArg (literal 37 :: ·) (ih h numStr)
    | conversion k =>
      cases args with
      | nil => rfl
      | cons arg args =>
        obtain ⟨hword, hrest⟩ := List.forall_mem_cons.mp h
        rw [formatted, expand, hword, overlay, ih hrest]
        rfl

/-- Any other conversion puts a character of its argument. -/
theorem exists_converted {ps : List Piece} {args : List Int32} {w : List UInt8}
    (hw : w ∈ words ps args) (hne : w ≠ [0]) (numStr : List UInt8) :
    ∃ c, converted c ∈ formatted literal converted clear ps args numStr := by
  induction ps generalizing args numStr with
  | nil => cases args <;> exact absurd hw List.not_mem_nil
  | cons p ps ih =>
    cases p with
    | literal c hc =>
      obtain ⟨d, hd⟩ := ih hw numStr
      exact ⟨d, List.mem_cons_of_mem _ hd⟩
    | percent =>
      obtain ⟨d, hd⟩ := ih hw numStr
      exact ⟨d, List.mem_cons_of_mem _ hd⟩
    | conversion k =>
      cases args with
      | nil => exact absurd hw List.not_mem_nil
      | cons arg args =>
        rw [formatted]
        rcases List.mem_cons.mp hw with rfl | hw
        · -- the first character of the word
          obtain ⟨c, cs, hcs⟩ := List.exists_cons_of_length_pos (length_word_pos k arg)
          have hno : 0 ∉ word k arg := (word_eq_or k arg).resolve_left hne
          have hc : c ≠ 0 := fun hc => hno (hcs ▸ hc ▸ List.mem_cons_self ..)
          refine ⟨c, List.mem_append_left _ (List.mem_map_of_mem ?_)⟩
          rw [overlay, hcs, List.cons_append, cString_cons hc]
          exact List.mem_cons_self ..
        · obtain ⟨d, hd⟩ := ih hw _
          exact ⟨d, List.mem_append_right _ hd⟩

end Loop

/-! ## The text -/

/-- With a clear buffer behind it a word is its own text. -/
theorem cString_over_clear (k : Conversion) (arg : Int32) :
    cString (overlay clearNumStr (word k arg)) = cString (word k arg) := by
  have hle := length_word_le k arg
  obtain ⟨n, hn⟩ : ∃ n, clearNumStr.drop (word k arg).length = List.replicate (n + 1) 0 := by
    rw [clearNumStr, List.drop_replicate]
    exact ⟨64 - (word k arg).length, congrArg (List.replicate · 0) (by omega)⟩
  rw [overlay, hn, List.replicate_succ]
  rcases word_eq_or k arg with hword | hword
  · rw [hword]
    rfl
  · rw [cString_append hword, cString_of_notMem hword]

/-- **With a buffer that is cleared** a format becomes the text that it stands for. -/
theorem formatted_clear (ps : List Piece) (args : List Int32) :
    formatted id id true ps args clearNumStr = expand ps args := by
  induction ps generalizing args with
  | nil => rfl
  | cons p ps ih =>
    cases p with
    | literal c h => exact congrArg (c :: ·) (ih args)
    | percent => exact congrArg (37 :: ·) (ih args)
    | conversion k =>
      cases args with
      | nil => rfl
      | cons arg args =>
        rw [formatted, expand, List.map_id, cString_over_clear, if_pos rfl, ih]

/-- A word is written over a buffer with nothing behind it. -/
def Fits (numStr w : List UInt8) : Prop := w = [0] ∨ numStr[w.length]? = some 0

/-- A word is not shorter than one before it, unless it is no text. -/
def Covers (v w : List UInt8) : Prop := w = [0] ∨ v.length ≤ w.length

/-- What is behind a word in the buffer. -/
theorem cString_over (h : Buffer numStr) (k : Conversion) (arg : Int32) :
    ∃ extra, cString (overlay numStr (word k arg)) = cString (word k arg) ++ extra ∧
      (extra = [] ↔ Fits numStr (word k arg)) := by
  have hle := length_word_le k arg
  have hlength := h.length
  rcases word_eq_or k arg with hword | hword
  · refine ⟨[], ?_, iff_of_true rfl (.inl hword)⟩
    rw [hword]
    rfl
  · refine ⟨cString (numStr.drop (word k arg).length), ?_, ?_⟩
    · rw [overlay, cString_append_of_notMem hword, cString_of_notMem hword]
    · have hne : word k arg ≠ [0] := fun heq => hword (heq ▸ List.mem_singleton_self 0)
      rw [Fits, or_iff_right hne]
      have hlt : (word k arg).length < numStr.length := by omega
      rw [List.drop_eq_getElem_cons hlt, List.getElem?_eq_getElem hlt, Option.some.injEq]
      by_cases hzero : numStr[(word k arg).length] = 0
      · rw [hzero]
        exact iff_of_true rfl rfl
      · rw [cString_cons hzero]
        exact iff_of_false (List.cons_ne_nil _ _) hzero

/-- A word that fits behind another one fits before it, and is not shorter. -/
theorem fits_over_iff (numStr : List UInt8) (k l : Conversion) (arg brg : Int32) :
    Fits (overlay numStr (word k arg)) (word l brg) ↔
      Covers (word k arg) (word l brg) ∧ Fits numStr (word l brg) := by
  have hpos := length_word_pos l brg
  unfold Fits Covers overlay
  by_cases hnul : word l brg = [0]
  · simp [hnul]
  simp only [hnul, false_or]
  rcases Nat.lt_or_ge (word l brg).length (word k arg).length with hlt | hle
  · -- a longer word has digits where the shorter one ends
    rw [List.getElem?_append_left hlt]
    refine iff_of_false (fun hzero => ?_) fun hcovers => absurd hcovers.1 (by omega)
    have hmem : 0 ∈ word k arg := List.mem_of_getElem? hzero
    have hword : word k arg = [0] := (word_eq_or k arg).resolve_right fun hno => hno hmem
    rw [hword, List.length_singleton] at hlt
    omega
  · rw [List.getElem?_append_right hle, List.getElem?_drop, Nat.add_sub_cancel' hle]
    exact (and_iff_right hle).symm

theorem length_expand_le (hbuffer : Buffer numStr) (ps : List Piece) (args : List Int32) :
    (expand ps args).length ≤ (formatted id id false ps args numStr).length := by
  induction ps generalizing args numStr with
  | nil => exact Nat.zero_le _
  | cons p ps ih =>
    cases p with
    | literal c h => exact Nat.succ_le_succ (ih hbuffer args)
    | percent => exact Nat.succ_le_succ (ih hbuffer args)
    | conversion k =>
      cases args with
      | nil => exact Nat.zero_le _
      | cons arg args =>
        obtain ⟨extra, htext, -⟩ := cString_over hbuffer k arg
        have hrest := ih (hbuffer.overlay k arg) args
        rw [expand, formatted, List.map_id, if_neg (by decide), htext]
        simp only [List.length_append]
        omega

/-- The words as a list of words. -/
theorem exists_of_mem_words {w : List UInt8} {ps : List Piece} {args : List Int32}
    (hw : w ∈ words ps args) : ∃ k arg, w = word k arg := by
  induction ps generalizing args with
  | nil => cases args <;> exact absurd hw List.not_mem_nil
  | cons p ps ih =>
    cases p with
    | literal c h => exact ih hw
    | percent => exact ih hw
    | conversion k =>
      cases args with
      | nil => exact absurd hw List.not_mem_nil
      | cons arg args =>
        rcases List.mem_cons.mp hw with rfl | hw
        · exact ⟨k, arg, rfl⟩
        · exact ih hw

/-- **With a buffer that is not cleared** the text is right exactly if no word is shorter than one
before it. -/
theorem stale_eq_iff (hbuffer : Buffer numStr) (ps : List Piece) (args : List Int32) :
    formatted id id false ps args numStr = expand ps args ↔
      (∀ w ∈ words ps args, Fits numStr w) ∧ (words ps args).Pairwise Covers := by
  induction ps generalizing args numStr with
  | nil => cases args <;> simp [formatted, expand, words]
  | cons p ps ih =>
    cases p with
    | literal c h =>
      rw [formatted, expand, words]
      exact (List.cons_inj_right c).trans (ih hbuffer args)
    | percent =>
      rw [formatted, expand, words]
      exact (List.cons_inj_right 37).trans (ih hbuffer args)
    | conversion k =>
      cases args with
      | nil => simp [formatted, expand, words]
      | cons arg args =>
        obtain ⟨extra, htext, hextra⟩ := cString_over hbuffer k arg
        have hlength := length_expand_le (hbuffer.overlay k arg) ps args
        -- characters too many are not made up for by what follows
        have hsplit : extra ++ formatted id id false ps args (overlay numStr (word k arg)) =
            expand ps args ↔ extra = [] ∧
              formatted id id false ps args (overlay numStr (word k arg)) = expand ps args := by
          constructor
          · intro heq
            have hlen := congrArg List.length heq
            rw [List.length_append] at hlen
            obtain rfl := List.eq_nil_of_length_eq_zero (show extra.length = 0 by omega)
            exact ⟨rfl, heq⟩
          · rintro ⟨rfl, heq⟩
            exact heq
        rw [formatted, expand, words, List.map_id, if_neg (by decide), htext, List.append_assoc,
          List.append_cancel_left_eq, hsplit, hextra, ih (hbuffer.overlay k arg), List.forall_mem_cons,
          List.pairwise_cons]
        -- the buffer has the word that was written, and behind it what was there before
        have hfits : (∀ w ∈ words ps args, Fits (overlay numStr (word k arg)) w) ↔
            (∀ w ∈ words ps args, Covers (word k arg) w) ∧ ∀ w ∈ words ps args, Fits numStr w := by
          rw [← forall₂_and]
          refine forall₂_congr fun w hw => ?_
          obtain ⟨l, brg, rfl⟩ := exists_of_mem_words hw
          exact fits_over_iff numStr k l arg brg
        rw [hfits]
        tauto

end Cutesugar.Libc
