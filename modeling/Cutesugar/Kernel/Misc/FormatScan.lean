import Cutesugar.Kernel.Misc.Formatters
import Mathlib.Data.List.Induction

/-!
# Where the formatters stop reading

The loops of `kprint` and `fprintf` take each `%` together with the character behind it. Where that is the
NUL of the format they send it like any other character and go on behind it. `dprintf` stays at the second
`%` of a `%%`, so it comes to the NUL in this way whenever the last character is a `%`.

A format is the array of its characters with the NUL as the last one here, so a read behind the NUL is a
fault.

- `CutOff`: the loop of `kprint` and `fprintf` takes the NUL for the character behind a `%`.
- `scans_inside_iff`: for which formats none of the three functions reads on behind the NUL.
-/

namespace Cutesugar.Kernel

open Libc

/-- The characters are taken one by one, and each `%` with the one behind it; the last one is a `%` that
no character is left for. -/
def CutOff : List UInt8 → Prop
  | [] => False
  | c :: str =>
    if c = 37 then
      match str with
      | [] => True
      | _ :: str => CutOff str
    else CutOff str

/-- With an argument for each `%`, the three functions return without a read outside of the format. -/
def ScansInside (typeOf : ℕ → ℕ) (stream : File) (str : List UInt8) : Prop :=
  ∀ args : List Int32, str.count 37 ≤ args.length →
    (∃ out, kprint (str ++ [0]) args = .ok out) ∧
    (∃ out, dprintf (str ++ [0]) args = .ok out) ∧
    ∃ result, fprintf typeOf (some stream) (some (str ++ [0])) args = .ok result

variable {c d : UInt8} {str ptr numStr : List UInt8} {args : List Int32}

/-! ## The last character -/

theorem cutOff_cons (h : c ≠ 37) : CutOff (c :: str) ↔ CutOff str := by
  rw [CutOff.eq_def]
  simp [h]

theorem CutOff.getLast? (h : CutOff str) : str.getLast? = some 37 := by
  induction str using CutOff.induct with
  | case1 => exact h.elim
  | case2 => rfl
  | case3 c str ih =>
    have hrest : CutOff str := h
    rw [List.getLast?_cons_cons, List.getLast?_cons, ih hrest]
    rfl
  | case4 c str hc ih =>
    rw [cutOff_cons hc] at h
    rw [List.getLast?_cons, ih h]
    rfl

/-- A character that is no `%` is not the last one in question. -/
theorem getLast?_cons_ne (h : c ≠ 37) : (c :: str).getLast? = some 37 ↔ str.getLast? = some 37 := by
  cases str with
  | nil => simpa using h
  | cons d str => rw [List.getLast?_cons_cons]

/-- A result with something put in front of it. -/
theorem exists_map_ok {α β : Type} {f : α → β} {x : Except Fault α} :
    (∃ b, f <$> x = .ok b) ↔ ∃ a, x = .ok a := by
  constructor
  · rintro ⟨b, hb⟩
    obtain ⟨a, ha, -⟩ := map_eq_ok.mp hb
    exact ⟨a, ha⟩
  · rintro ⟨a, rfl⟩
    exact ⟨f a, rfl⟩

/-! ## `kprint` and `fprintf` -/

section Loop

variable {α : Type} {literal converted : UInt8 → α} {clear : Bool}
variable {put : List UInt8 → Except Fault (List α)}

theorem formatLoop_letter (h : d ≠ 37) (hletter : Conversion.ofLetter d = none) :
    formatLoop literal put clear (37 :: d :: str) args numStr =
      (literal d :: ·) <$> formatLoop literal put clear str args numStr := by
  rw [formatLoop.eq_def]
  simp [h, hletter]

/-- **The loop ends** at the NUL exactly if this is not taken for the character behind a `%`. -/
theorem formatLoop_ends_iff (hput : ∀ bs, 0 ∈ bs → put bs = .ok ((cString bs).map converted))
    (hstr : 0 ∉ str) (hbuffer : Buffer numStr) (hargs : str.count 37 ≤ args.length) :
    (∃ out, formatLoop literal put clear (str ++ [0]) args numStr = .ok out) ↔ ¬ CutOff str := by
  induction str using CutOff.induct generalizing args numStr with
  | case1 => exact iff_of_true ⟨[], formatLoop_zero⟩ id
  | case2 =>
    -- the NUL is sent, and the next character is behind it
    refine iff_of_false ?_ fun h => h trivial
    rintro ⟨out, hout⟩
    change formatLoop literal put clear [37, 0] args numStr = _ at hout
    rw [formatLoop_letter (by decide) rfl, map_eq_ok] at hout
    obtain ⟨out, hout, -⟩ := hout
    exact nomatch hout
  | case3 d str ih =>
    have hrest : 0 ∉ str := fun h => hstr (by simp [h])
    change (∃ out, formatLoop literal put clear (37 :: d :: (str ++ [0])) args numStr = _) ↔ ¬ CutOff str
    rw [List.count_cons_self] at hargs
    by_cases hd : d = 37
    · subst hd
      rw [List.count_cons_self] at hargs
      rw [formatLoop_percent, exists_map_ok, ih hrest hbuffer (by omega)]
    · rw [List.count_cons_of_ne hd] at hargs
      cases hletter : Conversion.ofLetter d with
      | none => rw [formatLoop_letter hd hletter, exists_map_ok, ih hrest hbuffer (by omega)]
      | some k =>
        obtain rfl := letter_of_ofLetter hletter
        obtain ⟨arg, args, rfl⟩ := List.exists_cons_of_length_pos (by omega : 0 < args.length)
        rw [formatLoop_conversion hput hbuffer, exists_map_ok, ih hrest _ (by simpa using hargs)]
        split_ifs
        · exact buffer_clear
        · exact hbuffer.overlay k arg
  | case4 c str hc ih =>
    have hzero : c ≠ 0 := fun h => hstr (h ▸ List.mem_cons_self ..)
    have hrest : 0 ∉ str := fun h => hstr (List.mem_cons_of_mem c h)
    rw [List.count_cons_of_ne hc] at hargs
    rw [List.cons_append, formatLoop_other hzero hc, exists_map_ok, cutOff_cons hc,
      ih hrest hbuffer hargs]

end Loop

theorem kprint_ends_iff (hstr : 0 ∉ str) (hargs : str.count 37 ≤ args.length) :
    (∃ out, kprint (str ++ [0]) args = .ok out) ↔ ¬ CutOff str := by
  have hput : ∀ bs, 0 ∈ bs → putstr bs = .ok ((cString bs).map id) := by
    intro bs hbs
    rw [putstr_eq hbs, List.map_id]
  exact formatLoop_ends_iff hput hstr buffer_clear hargs

theorem fprintf_ends_iff (typeOf : ℕ → ℕ) (stream : File) (hstr : 0 ∉ str)
    (hargs : str.count 37 ≤ args.length) :
    (∃ result, fprintf typeOf (some stream) (some (str ++ [0])) args = .ok result) ↔ ¬ CutOff str := by
  rw [fprintf, exists_map_ok]
  exact formatLoop_ends_iff (fputstr_eq typeOf stream) hstr buffer_clear hargs

/-! ## `dprintf` -/

/-- **The loop of `dprintf` ends** at the NUL exactly if the last character is no `%`. It takes no more
characters at `str` than at `c`. -/
theorem dprintfLoop_ends_iff (hstr : 0 ∉ str) (hptr : str.length ≤ ptr.length) (hbuffer : Buffer numStr)
    (hargs : str.count 37 ≤ args.length) :
    (∃ out, dprintfLoop (str ++ [0]) ptr args numStr = .ok out) ↔ str.getLast? ≠ some 37 := by
  induction str using List.twoStepInduction generalizing ptr args numStr with
  | nil => exact iff_of_true ⟨[], dprintfLoop_zero⟩ (by simp)
  | singleton c =>
    have hzero : c ≠ 0 := fun h => hstr (h ▸ List.mem_cons_self ..)
    by_cases hc : c = 37
    · subst hc
      refine iff_of_false ?_ (by simp)
      rintro ⟨out, hout⟩
      change dprintfLoop [37, 0] ptr args numStr = _ at hout
      rw [dprintfLoop_letter (by decide) rfl, map_eq_ok] at hout
      obtain ⟨out, hout, -⟩ := hout
      exact nomatch hout
    · rw [List.singleton_append, dprintfLoop_other hzero hc, exists_map_ok]
      exact iff_of_true ⟨[], dprintfLoop_zero⟩ (by simpa using hc)
  | cons_cons c d str ihtail ihnext =>
    have hnext : 0 ∉ d :: str := fun h => hstr (List.mem_cons_of_mem c h)
    have htail : 0 ∉ str := fun h => hnext (List.mem_cons_of_mem d h)
    have hzero : c ≠ 0 := fun h => hstr (h ▸ List.mem_cons_self ..)
    simp only [List.length_cons] at hptr
    rw [List.getLast?_cons_cons]
    by_cases hc : c = 37
    · subst hc
      rw [List.count_cons_self] at hargs
      change (∃ out, dprintfLoop (37 :: d :: (str ++ [0])) ptr args numStr = _) ↔ _
      by_cases hd : d = 37
      · -- the second `%` is read once more
        subst hd
        obtain ⟨s, ptr, rfl⟩ := List.exists_cons_of_length_pos (by omega : 0 < ptr.length)
        rw [dprintfLoop_percent, exists_map_ok]
        apply ihnext 37 hnext
        · simp only [List.length_cons] at hptr ⊢
          omega
        · exact hbuffer
        · omega
      · rw [List.count_cons_of_ne hd] at hargs
        rw [ne_eq, getLast?_cons_ne hd]
        cases hletter : Conversion.ofLetter d with
        | none =>
          rw [dprintfLoop_letter hd hletter, exists_map_ok]
          exact ihtail htail (by omega) hbuffer (by omega)
        | some k =>
          obtain rfl := letter_of_ofLetter hletter
          obtain ⟨arg, args, rfl⟩ := List.exists_cons_of_length_pos (by omega : 0 < args.length)
          rw [dprintfLoop_conversion hbuffer, exists_map_ok]
          exact ihtail htail (by omega) (hbuffer.overlay k arg) (by simpa using hargs)
    · rw [List.count_cons_of_ne hc] at hargs
      rw [List.cons_append, dprintfLoop_other hzero hc, exists_map_ok]
      apply ihnext d hnext
      · simp only [List.length_cons]
        omega
      · exact hbuffer
      · exact hargs

theorem dprintf_ends_iff (hstr : 0 ∉ str) (hargs : str.count 37 ≤ args.length) :
    (∃ out, dprintf (str ++ [0]) args = .ok out) ↔ str.getLast? ≠ some 37 := by
  apply dprintfLoop_ends_iff hstr _ buffer_clear hargs
  rw [List.length_append]
  omega

/-! ## The three functions -/

/-- **The NUL ends the format** for all three functions exactly if the last character is no `%`. -/
theorem scans_inside_iff (typeOf : ℕ → ℕ) (stream : File) (hstr : 0 ∉ str) :
    ScansInside typeOf stream str ↔ str.getLast? ≠ some 37 := by
  constructor
  · intro h
    have henough : str.count 37 ≤ (List.replicate (str.count 37) (0 : Int32)).length := by
      rw [List.length_replicate]
    exact (dprintf_ends_iff hstr henough).mp (h _ henough).2.1
  · intro hlast args hargs
    have hcut : ¬ CutOff str := fun h => hlast h.getLast?
    exact ⟨(kprint_ends_iff hstr hargs).mpr hcut, (dprintf_ends_iff hstr hargs).mpr hlast,
      (fprintf_ends_iff typeOf stream hstr hargs).mpr hcut⟩

/-- `%q%%.` -/
theorem scans_inside_percent : ScansInside (fun _ => 2) ⟨0x1000, 0⟩ [37, 113, 37, 37, 46] :=
  (scans_inside_iff _ _ (by decide)).mpr (by decide)

/-- `100%` is read over its end by all three functions, and `100%%` by `dprintf`. -/
theorem reads_behind_format :
    ¬ ScansInside (fun _ => 2) ⟨0x1000, 0⟩ [49, 48, 48, 37] ∧
    kprint [49, 48, 48, 37, 0] [0] = .error .overread ∧
    dprintf [49, 48, 48, 37, 0] [0] = .error .overread ∧
    fprintf (fun _ => 2) (some ⟨0x1000, 0⟩) (some [49, 48, 48, 37, 0]) [0] = .error .overread ∧
    dprintf [49, 48, 48, 37, 37, 0] [0, 0] = .error .overread := by
  have hkprint : kprint [49, 48, 48, 37, 0] [0] = .error .overread := by decide
  refine ⟨fun h => ?_, hkprint, by decide, by decide, by decide⟩
  obtain ⟨⟨out, hout⟩, -⟩ := h [0] (by decide)
  exact nomatch hkprint.symm.trans hout

end Cutesugar.Kernel
