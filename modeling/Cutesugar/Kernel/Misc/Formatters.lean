import Cutesugar.Libc.Stdio

/-!
# `kprint` and `dprintf` (`kernel/misc/sbd.c`, `kernel/misc/dprintf.c`)

Each sends one character after the other, `kprint` to the serial port and `dprintf` to a character
device. Besides the buffer, which only `kprint` clears, they differ in `%%`: `dprintf` sends the next
character from the begin of the format string, and reads the second `%` once more.

- `dprintfLoop`: the loop of `dprintf`.
- `dprintf_eq_iff`: when it sends the text that the format stands for.
- `formatters_agree_iff`: when the three functions agree.
-/

namespace Cutesugar.Kernel

open Libc

/-- `kprint`: the characters sent to the serial port. -/
def kprint (str : List UInt8) (args : List Int32) : Except Fault (List UInt8) :=
  formatLoop id putstr true str args clearNumStr

/-- The loop of `dprintf`, with what is left of the string at `c` and at `str`. -/
def dprintfLoop : List UInt8 → List UInt8 → List Int32 → List UInt8 → Except Fault (List UInt8)
  | [], _, _, _ => .error .overread
  | c :: next, str, args, numStr =>
    if c = 0 then .ok []
    else if c = 37 then
      match next with
      | [] => .error .overread
      | c :: behind =>
        if c = 37 then
          -- `*str++`, and `c` stays where it is
          match str with
          | [] => .error .overread
          | s :: str => (s :: ·) <$> dprintfLoop (c :: behind) str args numStr
        else match Conversion.ofLetter c with
          | some k => do
            let (arg, args) ← vaArg args
            let numStr ← k.write arg numStr
            let text ← putstr numStr
            let rest ← dprintfLoop behind str args numStr
            .ok (text ++ rest)
          | none => (c :: ·) <$> dprintfLoop behind str args numStr
    else (c :: ·) <$> dprintfLoop next str args numStr

/-- `dprintf`: the characters sent to the character device. -/
def dprintf (str : List UInt8) (args : List Int32) : Except Fault (List UInt8) :=
  dprintfLoop str str args clearNumStr

/-! ## One piece after the other -/

variable {c s : UInt8} {next str rest numStr out : List UInt8} {args : List Int32} {arg : Int32}
variable {k : Conversion} {ps : List Piece}

theorem dprintfLoop_zero : dprintfLoop (0 :: next) str args numStr = .ok [] := by
  cases next <;> rfl

theorem dprintfLoop_other (hzero : c ≠ 0) (h : c ≠ 37) :
    dprintfLoop (c :: next) str args numStr = (c :: ·) <$> dprintfLoop next str args numStr := by
  rw [dprintfLoop.eq_def]
  simp [hzero, h]

theorem dprintfLoop_percent : dprintfLoop (37 :: 37 :: next) (s :: str) args numStr =
    (s :: ·) <$> dprintfLoop (37 :: next) str args numStr := rfl

theorem dprintfLoop_letter (h : c ≠ 37) (hletter : Conversion.ofLetter c = none) :
    dprintfLoop (37 :: c :: next) str args numStr = (c :: ·) <$> dprintfLoop next str args numStr := by
  rw [dprintfLoop.eq_def]
  simp [h, hletter]

theorem dprintfLoop_conversion (hbuffer : Buffer numStr) :
    dprintfLoop (37 :: k.letter :: next) str (arg :: args) numStr =
      (cString (overlay numStr (word k arg)) ++ ·) <$>
        dprintfLoop next str args (overlay numStr (word k arg)) := by
  have htext := putstr_eq (hbuffer.overlay k arg).zero_mem
  rw [dprintfLoop.eq_def]
  simp only [if_false, if_true, (letter_ne k).2, ofLetter_letter, vaArg, hbuffer.write_eq]
  rw [if_neg (by decide)]
  change (putstr (overlay numStr (word k arg)) >>= fun text => _) = _
  rw [htext]
  change (dprintfLoop next str args _ >>= fun rest => _) = _
  cases dprintfLoop next str args (overlay numStr (word k arg)) with
  | error f => rfl
  | ok out => rfl

theorem dprintfLoop_no_argument :
    dprintfLoop (37 :: k.letter :: next) str [] numStr = .error .overread := by
  cases k <;> rfl

theorem dprintfLoop_no_string :
    dprintfLoop (37 :: 37 :: next) [] args numStr = .error .overread := rfl

/-! ## What `%%` leads to -/

/-- The next piece is an ordinary character. -/
def Plain : List Piece → Prop
  | .literal c _ :: _ => Conversion.ofLetter c = none
  | _ => False

/-- Each `%%` is followed by an ordinary character, and finds a `%` at `str`. -/
def Percents : List Piece → List UInt8 → Prop
  | [], _ => True
  | .literal _ _ :: ps, str | .conversion _ :: ps, str => Percents ps str
  | .percent :: ps, str => str.head? = some 37 ∧ Plain ps ∧ Percents ps str.tail

/-- A loop that took at least the arguments of the pieces, and sent at least `more` characters besides
their text if it took no others. -/
def Sends (more : ℕ) (ps : List Piece) (args : List Int32) (out : List UInt8) : Prop :=
  conversions ps ≤ args.length ∧
    (args.length = conversions ps → (expand ps args).length + more ≤ out.length)

/-- **What is sent** is the text of the pieces or longer, also where the loop stands at the second `%`
of a `%%`. There it is longer unless an ordinary character follows. -/
theorem dprintfLoop_sends (ps : List Piece) :
    (∀ {str args numStr out}, Buffer numStr →
      dprintfLoop (text ps ++ 0 :: rest) str args numStr = .ok out → Sends 0 ps args out) ∧
    (∀ {str args numStr out}, Buffer numStr →
      dprintfLoop (37 :: (text ps ++ 0 :: rest)) str args numStr = .ok out →
        Sends 0 ps args out ∧ (¬ Plain ps → Sends 1 ps args out)) := by
  induction ps with
  | nil =>
    refine ⟨fun _ _ => ⟨Nat.zero_le _, fun _ => Nat.zero_le _⟩, fun {str args numStr out} _ h => ?_⟩
    -- the NUL is sent, and the loop goes on behind it
    change dprintfLoop (37 :: 0 :: rest) str args numStr = _ at h
    rw [dprintfLoop_letter (by decide) rfl, map_eq_ok] at h
    obtain ⟨out, -, rfl⟩ := h
    exact ⟨⟨Nat.zero_le _, fun _ => Nat.zero_le _⟩,
      fun _ => ⟨Nat.zero_le _, fun _ => Nat.succ_le_succ (Nat.zero_le _)⟩⟩
  | cons p ps ih =>
    obtain ⟨ihnext, ihsecond⟩ := ih
    cases p with
    | literal c h =>
      constructor
      · intro str args numStr out hbuffer hloop
        change dprintfLoop (c :: (text ps ++ 0 :: rest)) str args numStr = _ at hloop
        rw [dprintfLoop_other h.1 h.2, map_eq_ok] at hloop
        obtain ⟨out, hloop, rfl⟩ := hloop
        obtain ⟨hle, hlength⟩ := ihnext hbuffer hloop
        exact ⟨hle, fun hargs => Nat.succ_le_succ (hlength hargs)⟩
      · intro str args numStr out hbuffer hloop
        change dprintfLoop (37 :: c :: (text ps ++ 0 :: rest)) str args numStr = _ at hloop
        cases hletter : Conversion.ofLetter c with
        | none =>
          rw [dprintfLoop_letter h.2 hletter, map_eq_ok] at hloop
          obtain ⟨out, hloop, rfl⟩ := hloop
          obtain ⟨hle, hlength⟩ := ihnext hbuffer hloop
          exact ⟨⟨hle, fun hargs => Nat.succ_le_succ (hlength hargs)⟩,
            fun hplain => absurd hletter hplain⟩
        | some k =>
          -- an argument is taken that the format has no conversion for
          obtain rfl := letter_of_ofLetter hletter
          cases args with
          | nil =>
            rw [dprintfLoop_no_argument] at hloop
            cases hloop
          | cons arg args =>
            rw [dprintfLoop_conversion hbuffer, map_eq_ok] at hloop
            obtain ⟨out, hloop, rfl⟩ := hloop
            obtain ⟨hle, -⟩ := ihnext (hbuffer.overlay k arg) hloop
            have hmore : conversions ps < (arg :: args).length := Nat.lt_succ_of_le hle
            exact ⟨⟨hmore.le, fun hargs => absurd hargs hmore.ne'⟩,
              fun _ => ⟨hmore.le, fun hargs => absurd hargs hmore.ne'⟩⟩
    | percent =>
      have hfirst {str args numStr out} (hbuffer : Buffer numStr)
          (hloop : dprintfLoop (text (.percent :: ps) ++ 0 :: rest) str args numStr = .ok out) :
          Sends 0 (.percent :: ps) args out := by
        change dprintfLoop (37 :: 37 :: (text ps ++ 0 :: rest)) str args numStr = _ at hloop
        cases str with
        | nil =>
          rw [dprintfLoop_no_string] at hloop
          cases hloop
        | cons s str =>
          rw [dprintfLoop_percent, map_eq_ok] at hloop
          obtain ⟨out, hloop, rfl⟩ := hloop
          obtain ⟨⟨hle, hlength⟩, -⟩ := ihsecond hbuffer hloop
          exact ⟨hle, fun hargs => Nat.succ_le_succ (hlength hargs)⟩
      refine ⟨hfirst, fun {str args numStr out} hbuffer hloop => ?_⟩
      change dprintfLoop (37 :: 37 :: (37 :: (text ps ++ 0 :: rest))) str args numStr = _ at hloop
      cases str with
      | nil =>
        rw [dprintfLoop_no_string] at hloop
        cases hloop
      | cons s str =>
        rw [dprintfLoop_percent, map_eq_ok] at hloop
        obtain ⟨out, hloop, rfl⟩ := hloop
        obtain ⟨hle, hlength⟩ := hfirst hbuffer hloop
        exact ⟨⟨hle, fun hargs => Nat.le_succ_of_le (hlength hargs)⟩,
          fun _ => ⟨hle, fun hargs => Nat.succ_le_succ (hlength hargs)⟩⟩
    | conversion k =>
      have hfirst {str args numStr out} (hbuffer : Buffer numStr)
          (hloop : dprintfLoop (text (.conversion k :: ps) ++ 0 :: rest) str args numStr = .ok out) :
          Sends 0 (.conversion k :: ps) args out := by
        change dprintfLoop (37 :: k.letter :: (text ps ++ 0 :: rest)) str args numStr = _ at hloop
        cases args with
        | nil =>
          rw [dprintfLoop_no_argument] at hloop
          cases hloop
        | cons arg args =>
          rw [dprintfLoop_conversion hbuffer, map_eq_ok] at hloop
          obtain ⟨out, hloop, rfl⟩ := hloop
          obtain ⟨hle, hlength⟩ := ihnext (hbuffer.overlay k arg) hloop
          refine ⟨Nat.succ_le_succ hle, fun hargs => ?_⟩
          have hrest := hlength (Nat.succ.inj hargs)
          obtain ⟨extra, htext, -⟩ := cString_over hbuffer k arg
          rw [expand, htext]
          simp only [List.length_append]
          omega
      refine ⟨hfirst, fun {str args numStr out} hbuffer hloop => ?_⟩
      change dprintfLoop (37 :: 37 :: (k.letter :: (text ps ++ 0 :: rest))) str args numStr = _ at hloop
      cases str with
      | nil =>
        rw [dprintfLoop_no_string] at hloop
        cases hloop
      | cons s str =>
        rw [dprintfLoop_percent, map_eq_ok] at hloop
        obtain ⟨out, hloop, rfl⟩ := hloop
        obtain ⟨hle, hlength⟩ := hfirst hbuffer hloop
        exact ⟨⟨hle, fun hargs => Nat.le_succ_of_le (hlength hargs)⟩,
          fun _ => ⟨hle, fun hargs => Nat.succ_le_succ (hlength hargs)⟩⟩

/-- At the second `%` of a `%%` an ordinary character is the next one as well. -/
theorem dprintfLoop_plain (h : Plain ps) :
    dprintfLoop (37 :: (text ps ++ 0 :: rest)) str args numStr =
      dprintfLoop (text ps ++ 0 :: rest) str args numStr := by
  cases ps with
  | nil => exact h.elim
  | cons p ps =>
    cases p with
    | literal c hc =>
      change dprintfLoop (37 :: c :: (text ps ++ 0 :: rest)) str args numStr =
        dprintfLoop (c :: (text ps ++ 0 :: rest)) str args numStr
      rw [dprintfLoop_letter hc.2 h, dprintfLoop_other hc.1 hc.2]
    | percent => exact h.elim
    | conversion k => exact h.elim

/-- **The text is sent** exactly if each `%%` turns out well and the buffer shows nothing behind the
words. -/
theorem dprintfLoop_eq_iff (hbuffer : Buffer numStr) (hargs : args.length = conversions ps) :
    dprintfLoop (text ps ++ 0 :: rest) str args numStr = .ok (expand ps args) ↔
      Percents ps str ∧ formatted id id false ps args numStr = expand ps args := by
  induction ps generalizing str args numStr with
  | nil =>
    change dprintfLoop (0 :: rest) str args numStr = .ok [] ↔ True ∧ _
    rw [dprintfLoop_zero]
    exact iff_of_true rfl ⟨trivial, rfl⟩
  | cons p ps ih =>
    cases p with
    | literal c h =>
      change dprintfLoop (c :: (text ps ++ 0 :: rest)) str args numStr = .ok (c :: expand ps args) ↔
        Percents ps str ∧ c :: formatted id id false ps args numStr = c :: expand ps args
      rw [dprintfLoop_other h.1 h.2, map_eq_ok]
      simp only [List.cons.injEq, true_and, exists_eq_right, ih hbuffer hargs]
    | percent =>
      change dprintfLoop (37 :: 37 :: (text ps ++ 0 :: rest)) str args numStr =
          .ok (37 :: expand ps args) ↔
        (str.head? = some 37 ∧ Plain ps ∧ Percents ps str.tail) ∧
          37 :: formatted id id false ps args numStr = 37 :: expand ps args
      cases str with
      | nil =>
        rw [dprintfLoop_no_string]
        exact iff_of_false (fun h => nomatch h) fun h => nomatch h.1.1
      | cons s str =>
        rw [dprintfLoop_percent, map_eq_ok]
        simp only [List.cons.injEq, true_and, List.head?_cons, List.tail_cons, Option.some.injEq]
        constructor
        · rintro ⟨out, hloop, rfl, rfl⟩
          -- anything but an ordinary character makes it longer
          have hplain : Plain ps := by
            by_contra hno
            obtain ⟨-, hmore⟩ := (dprintfLoop_sends ps).2 hbuffer hloop
            have hlength := (hmore hno).2 hargs
            exact absurd hlength (Nat.lt_irrefl _)
          rw [dprintfLoop_plain hplain] at hloop
          obtain ⟨hpercents, htext⟩ := (ih hbuffer hargs).mp hloop
          exact ⟨⟨rfl, hplain, hpercents⟩, htext⟩
        · rintro ⟨⟨rfl, hplain, hpercents⟩, htext⟩
          have hloop := (ih hbuffer hargs).mpr ⟨hpercents, htext⟩
          rw [← dprintfLoop_plain hplain] at hloop
          exact ⟨_, hloop, rfl, rfl⟩
    | conversion k =>
      obtain ⟨arg, args, rfl⟩ := List.exists_cons_of_length_eq_add_one hargs
      replace hargs : args.length = conversions ps := Nat.succ.inj hargs
      change dprintfLoop (37 :: k.letter :: (text ps ++ 0 :: rest)) str (arg :: args) numStr = _ ↔
        Percents ps str ∧ _
      obtain ⟨extra, htext, -⟩ := cString_over hbuffer k arg
      have hover := hbuffer.overlay k arg
      rw [dprintfLoop_conversion hbuffer, map_eq_ok, formatted, expand, List.map_id, if_neg (by decide),
        htext]
      simp only [List.append_assoc, List.append_cancel_left_eq]
      constructor
      · rintro ⟨out, hloop, heq⟩
        have hlength := ((dprintfLoop_sends ps).1 hover hloop).2 hargs
        have hsum := congrArg List.length heq
        rw [List.length_append] at hsum
        obtain rfl := List.eq_nil_of_length_eq_zero (show extra.length = 0 by omega)
        rw [List.nil_append] at heq ⊢
        rw [heq] at hloop
        exact (ih hover hargs).mp hloop
      · rintro ⟨hpercents, heq⟩
        have hlength := length_expand_le hover ps args
        have hsum := congrArg List.length heq
        rw [List.length_append] at hsum
        obtain rfl := List.eq_nil_of_length_eq_zero (show extra.length = 0 by omega)
        rw [List.nil_append] at heq
        exact ⟨_, (ih hover hargs).mpr ⟨hpercents, heq⟩, rfl⟩

/-! ## The three functions -/

theorem kprint_eq (hargs : args.length = conversions ps) :
    kprint (text ps ++ 0 :: rest) args = .ok (expand ps args) := by
  have hput : ∀ bs, 0 ∈ bs → putstr bs = .ok ((cString bs).map id) := by
    intro bs hbs
    rw [putstr_eq hbs, List.map_id]
  rw [kprint, formatLoop_eq hput hargs buffer_clear, formatted_clear]

/-- `dprintf`, and `fprintf` on a stream, send what `kprint` sends. -/
def SameText (typeOf : ℕ → ℕ) (stream : File) (str : List UInt8) (args : List Int32) : Prop :=
  ∃ out, kprint str args = .ok out ∧ dprintf str args = .ok out ∧
    fprintf typeOf (some stream) (some str) args =
      .ok (1, out.map fun c => ⟨5, stream.object, 0, c⟩)

theorem fits_clear {w : List UInt8} (hw : w ∈ words ps args) : Libc.Fits clearNumStr w := by
  obtain ⟨k, arg, rfl⟩ := exists_of_mem_words hw
  have hle := length_word_le k arg
  refine .inr ?_
  rw [clearNumStr, List.getElem?_replicate, if_pos (by omega)]

/-- On a stream of a character device `fprintf` differs from `kprint` in the buffer only. -/
theorem fprintf_eq_iff {typeOf : ℕ → ℕ} {stream : File} (htype : typeOf stream.object = 2)
    (hargs : args.length = conversions ps) {out : List UInt8} :
    fprintf typeOf (some stream) (some (text ps ++ 0 :: rest)) args =
        .ok (1, out.map fun c => ⟨5, stream.object, 0, c⟩) ↔
      formatted id id false ps args clearNumStr = out := by
  let call (c : UInt8) : SystemCall := ⟨5, stream.object, 0, c⟩
  have hmap : (formatted id id false ps args clearNumStr).map call =
      formatted call call false ps args clearNumStr := map_formatted call ps args clearNumStr
  have hinjective : Function.Injective call := fun c d h => congrArg SystemCall.char h
  have hnumber : fputstrNumber 2 = 5 := rfl
  rw [fprintf_eq hargs, htype, if_pos rfl, hnumber]
  change Except.ok (1, formatted call call false ps args clearNumStr) = .ok ((1 : ℤ), out.map call) ↔ _
  rw [Except.ok.injEq, Prod.mk.injEq, and_iff_right rfl, ← hmap,
    (List.map_injective_iff.mpr hinjective).eq_iff]

/-- **Agreement**: on a format without stray `%` and with as many arguments as it takes, the three
functions send the same characters if and only if each `%%` is followed by an ordinary character and
finds a `%` at the begin of the string, and no word is shorter than one before it. -/
theorem formatters_agree_iff {typeOf : ℕ → ℕ} {stream : File} (htype : typeOf stream.object = 2)
    {ps : List Piece} {args : List Int32} (hargs : args.length = conversions ps) (rest : List UInt8) :
    SameText typeOf stream (text ps ++ 0 :: rest) args ↔
      Percents ps (text ps ++ 0 :: rest) ∧ (words ps args).Pairwise Covers := by
  have hfits : (∀ w ∈ words ps args, Libc.Fits clearNumStr w) := fun w hw => fits_clear hw
  have hstale := stale_eq_iff buffer_clear ps args
  rw [and_iff_right hfits] at hstale
  unfold SameText
  rw [← hstale, kprint_eq hargs]
  constructor
  · rintro ⟨out, hout, hdprintf, hfprintf⟩
    obtain rfl := Except.ok.inj hout
    exact (dprintfLoop_eq_iff buffer_clear hargs).mp hdprintf
  · intro h
    exact ⟨_, rfl, (dprintfLoop_eq_iff buffer_clear hargs).mpr h, (fprintf_eq_iff htype hargs).mpr h.2⟩

/-- `%% %d` on a character device. -/
theorem formatters_agree_percent : SameText (fun _ => 2) ⟨0x1000, 0⟩ [37, 37, 32, 37, 100, 0] [42] := by
  have hagree := @formatters_agree_iff (fun _ => 2) ⟨0x1000, 0⟩ rfl
    [.percent, .literal 32 (by decide), .conversion .d] [42] rfl []
  exact hagree.mpr ⟨⟨rfl, rfl, trivial⟩, List.pairwise_singleton _ _⟩

/-- `%d%d` with a number that has fewer digits than the first one, and `a%%b`. -/
theorem formatters_differ :
    (Paired [37, 100, 37, 100] ∧ ¬ SameText (fun _ => 2) ⟨0x1000, 0⟩ [37, 100, 37, 100, 0] [10, 7]) ∧
    (Paired [97, 37, 37, 98] ∧ ¬ SameText (fun _ => 2) ⟨0x1000, 0⟩ [97, 37, 37, 98, 0] []) := by
  have hdigits : kprint [37, 100, 37, 100, 0] [10, 7] = .ok [49, 48, 55] ∧
      dprintf [37, 100, 37, 100, 0] [10, 7] = .ok [49, 48, 55, 48] := by decide
  have hpercent : kprint [97, 37, 37, 98, 0] [] = .ok [97, 37, 98] ∧
      dprintf [97, 37, 37, 98, 0] [] = .ok [97, 97, 98] := by decide
  refine ⟨⟨?_, ?_⟩, ?_, ?_⟩
  · exact ⟨.inr rfl, .inr rfl, trivial⟩
  · rintro ⟨out, hkprint, hdprintf, -⟩
    rw [hdigits.1] at hkprint
    rw [hdigits.2] at hdprintf
    rw [← Except.ok.inj hkprint] at hdprintf
    exact absurd hdprintf (by decide)
  · exact ⟨.inl rfl, trivial⟩
  · rintro ⟨out, hkprint, hdprintf, -⟩
    rw [hpercent.1] at hkprint
    rw [hpercent.2] at hdprintf
    rw [← Except.ok.inj hkprint] at hdprintf
    exact absurd hdprintf (by decide)

end Cutesugar.Kernel
