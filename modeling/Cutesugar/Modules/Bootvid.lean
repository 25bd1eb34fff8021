import Cutesugar.Lib.Run
import Mathlib.Algebra.Order.Group.Nat
import Mathlib.Data.Int.Notation
import Mathlib.Logic.Function.Basic
import Mathlib.Tactic.SplitIfs

/-!
# The boot video (`modules/bootvid/bootvid.c`)

A character is drawn as a cell of 8 by 8 pixels where the cursor stands. The cursor goes on by one cell for a
character and to the start of the next row for a newline, and nothing stops it at the end of a row or of the
screen. The character is also the index into the font, and a `char` may be negative.

- `vgaFramebufferWriteChar`: the function, over any font.
- `DrawsWell`: a character is read from the font and drawn within one row of the screen.
- `StaysOnScreen`: all characters of an output are.
- `stays_on_screen_iff`: the outputs that fit the screen line by line.
-/

namespace Cutesugar.Modules

open Lib

/-! ## Drawing -/

/-- A framebuffer: whole cells, four bytes for a pixel and nothing behind the pixels of a row. -/
structure Framebuffer where
  width : ℕ
  height : ℕ
  pitch : ℕ
  width_lt : width < 2 ^ 64
  height_lt : height < 2 ^ 64
  width_cells : 8 ∣ width
  height_cells : 8 ∣ height
  pitch_eq : pitch = 4 * width
  fits : pitch * height ≤ 2 ^ 64

/-- `terminal_x`, `terminal_y`, and the pixels from the address of the framebuffer on, behind its end too. -/
structure Terminal where
  terminalX : ℕ
  terminalY : ℕ
  pixels : ℕ → UInt32

/-- What is read at an index into `FramebufferCharacters`, the rows of a glyph; outside of its 128 entries this
is whatever stands there. -/
abbrev Font := ℤ → ℕ → UInt8

/-- A `char` as an index. -/
def charIndex (c : UInt8) : ℤ := c.toInt8.toInt

/-- The index of a pixel of the cell at the cursor. -/
def pixelIndex (fb : Framebuffer) (t : Terminal) (width height : ℕ) : ℕ :=
  (t.terminalX + width + fb.width * (t.terminalY + height)) % 2 ^ 64

/-- The pixels that are stored for a character, in the order of the two loops. -/
def pixelStores (fb : Framebuffer) (font : Font) (t : Terminal) (c : UInt8) : List ℕ :=
  (List.range 8).flatMap fun height => (List.range 8).filterMap fun width =>
    if (font (charIndex c) height).toNat.testBit width then some (pixelIndex fb t width height) else none

/-- `VgaFramebufferWriteChar`, with the `specific_info` of the device. -/
def vgaFramebufferWriteChar (font : Font) (device : Option (Option Framebuffer)) (t : Terminal) (c : UInt8) :
    Terminal :=
  match device with
  | none | some none => t
  | some (some fb) =>
    -- a line is eight pixels high, and a character eight pixels wide
    if c = 10 then { t with terminalX := 0, terminalY := (t.terminalY + 8) % 2 ^ 64 }
    else
      { t with
        terminalX := (t.terminalX + 8) % 2 ^ 64
        pixels := (pixelStores fb font t c).foldl (fun m i => Function.update m i 0xFFFFFFFF) t.pixels }

/-! ## On the screen -/

/-- A character is drawn as it should be: its glyph is an entry of the font, each pixel that is stored is one of
the framebuffer, and its cell lies in one row of text. -/
structure DrawsWell (fb : Framebuffer) (font : Font) (t : Terminal) (c : UInt8) : Prop where
  glyph : 0 ≤ charIndex c ∧ charIndex c < 128
  stores : ∀ i ∈ pixelStores fb font t c, i < fb.width * fb.height
  row : ∃ r < fb.height / 8, t.terminalY = 8 * r ∧ t.terminalX + 8 ≤ fb.width

/-- The cursor before any output. -/
def Terminal.start (pixels : ℕ → UInt32) : Terminal := { terminalX := 0, terminalY := 0, pixels := pixels }

/-- **The output stays on screen**: every character of it that is no newline is drawn as it should be. -/
def StaysOnScreen (fb : Framebuffer) (font : Font) (pixels : ℕ → UInt32) (output : List UInt8) : Prop :=
  Along (vgaFramebufferWriteChar font (some (some fb))) (fun t c => c ≠ 10 → DrawsWell fb font t c)
    (.start pixels) output

/-- **The output fits the screen**: each of its lines with a character has at most as many as a row has cells,
all of them ASCII, and is, modulo the `2 ^ 61` rows after which the cursor starts again, among the rows of the
screen. -/
def FitsScreen (fb : Framebuffer) (output : List UInt8) : Prop :=
  ∀ n line, (output.splitOn 10)[n]? = some line → line ≠ [] →
    line.length ≤ fb.width / 8 ∧ n % 2 ^ 61 < fb.height / 8 ∧ ∀ c ∈ line, c < 128

variable {fb : Framebuffer} {font : Font} {t : Terminal} {c : UInt8} {column row n : ℕ}
  {pixels : ℕ → UInt32} {output line : List UInt8} {lines : List (List UInt8)}

/-! ## One character -/

/-- A `char` is an index into the font if it is not negative. -/
theorem charIndex_iff (c : UInt8) : 0 ≤ charIndex c ∧ charIndex c < 128 ↔ c < 128 := by
  have hlt : c < 128 ↔ c.toNat < 128 := UInt8.lt_iff_toNat_lt
  have hbyte := c.toNat_lt
  have hvalue : charIndex c = if 2 * c.toNat < 2 ^ 8 then (c.toNat : ℤ) else c.toNat - 2 ^ 8 := by
    rw [charIndex, ← Int8.toInt_toBitVec]
    exact BitVec.toInt_eq_toNat_cond _
  rw [hlt, hvalue]
  split_ifs <;> omega

theorem mem_pixelStores {i : ℕ} (h : i ∈ pixelStores fb font t c) :
    ∃ width < 8, ∃ height < 8, i = pixelIndex fb t width height := by
  obtain ⟨height, hheight, h⟩ := List.mem_flatMap.mp h
  obtain ⟨width, hwidth, h⟩ := List.mem_filterMap.mp h
  split_ifs at h
  exact ⟨width, List.mem_range.mp hwidth, height, List.mem_range.mp hheight, (Option.some.inj h).symm⟩

/-- The pixels of a cell on the screen are pixels of the framebuffer. -/
theorem pixelIndex_lt {width height : ℕ} (hx : t.terminalX + width < fb.width)
    (hy : t.terminalY + height < fb.height) : pixelIndex fb t width height < fb.width * fb.height := by
  have hrow : fb.width * (t.terminalY + height) + fb.width ≤ fb.width * fb.height := by
    rw [← Nat.mul_succ]
    exact Nat.mul_le_mul_left _ hy
  exact (Nat.mod_le _ _).trans_lt (by omega)

/-- **A character is drawn well** exactly in a cell of the screen. The column has not passed the end of the row
by more than one cell, so the cursor has not overflowed there. -/
theorem drawsWell_iff (hx : t.terminalX = 8 * column % 2 ^ 64) (hy : t.terminalY = 8 * row % 2 ^ 64)
    (hcolumn : column ≤ fb.width / 8) :
    DrawsWell fb font t c ↔ c < 128 ∧ column < fb.width / 8 ∧ row % 2 ^ 61 < fb.height / 8 := by
  have hwidth := fb.width_lt
  obtain ⟨w, hw⟩ := fb.width_cells
  obtain ⟨h, hh⟩ := fb.height_cells
  have hx' : t.terminalX = 8 * column := by omega
  have hy' : t.terminalY = 8 * (row % 2 ^ 61) := by omega
  constructor
  · rintro ⟨hglyph, -, r, hr, hrow, hend⟩
    exact ⟨(charIndex_iff c).mp hglyph, by omega, by omega⟩
  · rintro ⟨hglyph, hend, hrow⟩
    refine { glyph := (charIndex_iff c).mpr hglyph, stores := ?_, row := ⟨row % 2 ^ 61, hrow, hy', by omega⟩ }
    intro i hi
    obtain ⟨x, hx, y, hy, rfl⟩ := mem_pixelStores hi
    exact pixelIndex_lt (by omega) (by omega)

/-! ## Outputs -/

/-- The characters of an output meet the screen, from a column and a row on. -/
def FitsFrom (fb : Framebuffer) : ℕ → ℕ → List UInt8 → Prop
  | _, _, [] => True
  | column, row, c :: output =>
    if c = 10 then FitsFrom fb 0 (row + 1) output
    else (c < 128 ∧ column < fb.width / 8 ∧ row % 2 ^ 61 < fb.height / 8) ∧ FitsFrom fb (column + 1) row output

/-- **Run lemma**: along an output the cursor is at the column and the row of each character. -/
theorem along_iff_fitsFrom (column row : ℕ) (hx : t.terminalX = 8 * column % 2 ^ 64)
    (hy : t.terminalY = 8 * row % 2 ^ 64) (hcolumn : column ≤ fb.width / 8) :
    Along (vgaFramebufferWriteChar font (some (some fb))) (fun t c => c ≠ 10 → DrawsWell fb font t c) t output ↔
      FitsFrom fb column row output := by
  induction output generalizing t column row with
  | nil => exact Iff.rfl
  | cons c output ih =>
    rw [Along, FitsFrom]
    by_cases hc : c = 10
    · have hnewline : vgaFramebufferWriteChar font (some (some fb)) t c =
          { t with terminalX := 0, terminalY := (t.terminalY + 8) % 2 ^ 64 } := if_pos hc
      rw [if_pos hc, hnewline, ih 0 (row + 1) rfl (by dsimp only; omega) (Nat.zero_le _)]
      exact and_iff_right fun hne => absurd hc hne
    · have hdraw : vgaFramebufferWriteChar font (some (some fb)) t c =
          { t with
            terminalX := (t.terminalX + 8) % 2 ^ 64
            pixels := (pixelStores fb font t c).foldl (fun m i => Function.update m i 0xFFFFFFFF) t.pixels } :=
        if_neg hc
      rw [if_neg hc, hdraw, forall_prop_of_true hc, drawsWell_iff hx hy hcolumn]
      -- behind a character in a cell of the row the next column is at most the end of the row
      apply and_congr_right
      rintro ⟨-, hend, -⟩
      exact ih (column + 1) row (by dsimp only; omega) hy hend

/-- The lines of an output meet the screen, the first of them from a column on. -/
def LinesFit (fb : Framebuffer) : ℕ → ℕ → List (List UInt8) → Prop
  | _, _, [] => True
  | column, row, line :: lines =>
    (line ≠ [] → column + line.length ≤ fb.width / 8 ∧ row % 2 ^ 61 < fb.height / 8 ∧ ∀ c ∈ line, c < 128) ∧
      LinesFit fb 0 (row + 1) lines

theorem fitsFrom_iff_linesFit : FitsFrom fb column row output ↔ LinesFit fb column row (output.splitOn 10) := by
  induction output generalizing column row with
  | nil => simp [FitsFrom, LinesFit]
  | cons c output ih =>
    rw [FitsFrom, List.splitOn_cons_eq_if_modifyHead]
    by_cases hc : c = 10
    · rw [if_pos hc, if_pos (by simpa using hc), LinesFit, ih]
      exact (and_iff_right fun hne => absurd rfl hne).symm
    · rw [if_neg hc, if_neg (by simpa using hc), ih]
      obtain ⟨line, lines, hlines⟩ := List.exists_cons_of_ne_nil (List.splitOn_ne_nil 10 output)
      rw [hlines, List.modifyHead_cons, LinesFit, LinesFit, ← and_assoc]
      apply and_congr_left'
      -- the character is the first one of its line
      cases line with
      | nil =>
        simp only [List.length_singleton, List.mem_singleton, forall_eq, ne_eq, reduceCtorEq, not_false_eq_true,
          forall_true_left, not_true_eq_false, false_implies, and_true]
        constructor
        · rintro ⟨hascii, hend, hrow⟩
          exact ⟨hend, hrow, hascii⟩
        · rintro ⟨hend, hrow, hascii⟩
          exact ⟨hascii, hend, hrow⟩
      | cons c' line =>
        simp only [List.length_cons, List.mem_cons, forall_eq_or_imp, ne_eq, reduceCtorEq, not_false_eq_true,
          forall_true_left]
        constructor
        · rintro ⟨⟨hascii, -, hrow⟩, hend, -, hrest⟩
          exact ⟨by omega, hrow, hascii, hrest⟩
        · rintro ⟨hend, hrow, hascii, hrest⟩
          exact ⟨⟨hascii, by omega, hrow⟩, by omega, hrow, hrest⟩

theorem linesFit_iff :
    LinesFit fb 0 row lines ↔ ∀ n line, lines[n]? = some line → line ≠ [] →
      line.length ≤ fb.width / 8 ∧ (row + n) % 2 ^ 61 < fb.height / 8 ∧ ∀ c ∈ line, c < 128 := by
  induction lines generalizing row with
  | nil => simp [LinesFit]
  | cons line lines ih =>
    rw [LinesFit, ih, Nat.zero_add]
    constructor
    · rintro ⟨hfirst, hrest⟩ n line' hline hne
      cases n with
      | zero =>
        obtain rfl := Option.some.inj hline
        exact hfirst hne
      | succ n =>
        have hlater := hrest n line' hline hne
        rw [Nat.add_assoc, Nat.add_comm 1] at hlater
        exact hlater
    · intro h
      refine ⟨h 0 line rfl, fun n line' hline hne => ?_⟩
      have hlater := h (n + 1) line' hline hne
      rw [Nat.add_assoc, Nat.add_comm 1]
      exact hlater

/-- **The console output** stays on screen exactly if it fits the screen. -/
theorem stays_on_screen_iff (fb : Framebuffer) (font : Font) (pixels : ℕ → UInt32) (output : List UInt8) :
    StaysOnScreen fb font pixels output ↔ FitsScreen fb output := by
  rw [StaysOnScreen, along_iff_fitsFrom 0 0 rfl rfl (Nat.zero_le _), fitsFrom_iff_linesFit,
    linesFit_iff]
  simp only [Nat.zero_add, FitsScreen]

/-- A screen of one cell. -/
def oneCell : Framebuffer where
  width := 8
  height := 8
  pitch := 32
  width_lt := by decide
  height_lt := by decide
  width_cells := by decide
  height_cells := by decide
  pitch_eq := rfl
  fits := by decide

/-- Two characters leave it. -/
theorem two_characters_leave : ¬ StaysOnScreen oneCell (fun _ _ => 0xFF) (fun _ => 0) [65, 65] := by
  intro h
  obtain ⟨-, hsecond, -⟩ := h
  obtain ⟨r, -, -, hend⟩ := (hsecond (by decide)).row
  have hcursor : (0 + 8) % 2 ^ 64 + 8 ≤ 8 := hend
  exact absurd hcursor (by decide)

end Cutesugar.Modules
