import Cutesugar.Modules.Bootvid

/-!
# The text on the screen (`modules/bootvid/bootvid.c`)

What the pixels show after an output that fits the screen: the lines of the output from the first row on, in the
cells of the screen, each character over what was there. The device never clears a pixel, so what was on the
screen before stays between the strokes of the text.

- `Written`, `Lit`: the characters of a cell, and the pixels of their glyphs.
- `Shows`: the screen shows the output over what it showed.
- `screen_shows`: it does for every output that fits.
-/

namespace Cutesugar.Modules

open Lib

/-- The output has a character in a cell. After `2 ^ 61` rows the first one is written to again. -/
def Written (output : List UInt8) (column row : ℕ) (c : UInt8) : Prop :=
  ∃ n text, (output.splitOn 10)[n]? = some text ∧ n % 2 ^ 61 = row ∧ text[column]? = some c

/-- The glyph of a character has this pixel of its cell. -/
def GlyphAt (font : Font) (c : UInt8) (x y : ℕ) : Prop := (font (charIndex c) y).toNat.testBit x

/-- A pixel of the screen belongs to the glyph of a character in its cell. -/
def Lit (font : Font) (output : List UInt8) (x y : ℕ) : Prop :=
  ∃ c, Written output (x / 8) (y / 8) c ∧ GlyphAt font c (x % 8) (y % 8)

/-- **The screen shows the output** over what it showed before, and no other memory has changed. -/
structure Shows (fb : Framebuffer) (font : Font) (pixels : ℕ → UInt32) (output : List UInt8) (t : Terminal) :
    Prop where
  lit : ∀ x y, x < fb.width → y < fb.height → Lit font output x y → t.pixels (x + fb.width * y) = 0xFFFFFFFF
  dark : ∀ x y, x < fb.width → y < fb.height → ¬ Lit font output x y →
    t.pixels (x + fb.width * y) = pixels (x + fb.width * y)
  outside : ∀ i, fb.width * fb.height ≤ i → t.pixels i = pixels i

variable {fb : Framebuffer} {font : Font} {t : Terminal} {c : UInt8} {column row x y : ℕ}
  {pixels : ℕ → UInt32} {output text : List UInt8} {lines : List (List UInt8)}

/-! ## One character -/

/-- Stores of one value. -/
theorem foldl_update_apply {α : Type*} (v : α) (is : List ℕ) (m : ℕ → α) (i : ℕ) :
    is.foldl (fun m i => Function.update m i v) m i = if i ∈ is then v else m i := by
  induction is generalizing m with
  | nil => rfl
  | cons j is ih =>
    rw [List.foldl_cons, ih]
    by_cases hmem : i ∈ is
    · rw [if_pos hmem, if_pos (List.mem_cons_of_mem j hmem)]
    · rw [if_neg hmem]
      rcases eq_or_ne i j with rfl | hne
      · rw [Function.update_self, if_pos (List.mem_cons_self ..)]
      · rw [Function.update_of_ne hne, if_neg fun h => (List.mem_cons.mp h).elim hne hmem]

/-- All pixels of the screen have an index below `2 ^ 64`. -/
theorem Framebuffer.area_lt (fb : Framebuffer) : fb.width * fb.height < 2 ^ 64 := by
  have hfits := fb.fits
  rw [fb.pitch_eq, Nat.mul_assoc] at hfits
  omega

/-- A pixel is of a row and a column of the screen, and of no other. -/
theorem pixel_unique {x' y' : ℕ} (hx : x < fb.width) (hx' : x' < fb.width)
    (h : x + fb.width * y = x' + fb.width * y') : x = x' ∧ y = y' := by
  have hcolumn := congrArg (· % fb.width) h
  have hrow := congrArg (· / fb.width) h
  simp only [Nat.add_mul_mod_self_left, Nat.mod_eq_of_lt hx, Nat.mod_eq_of_lt hx'] at hcolumn
  simp only [Nat.add_mul_div_left _ _ (by omega : 0 < fb.width), Nat.div_eq_of_lt hx, Nat.div_eq_of_lt hx',
    Nat.zero_add] at hrow
  exact ⟨hcolumn, hrow⟩

/-- The index of a pixel of a cell on the screen. -/
theorem pixelIndex_eq {width height : ℕ} (hx : t.terminalX + width < fb.width)
    (hy : t.terminalY + height < fb.height) :
    pixelIndex fb t width height = t.terminalX + width + fb.width * (t.terminalY + height) := by
  have harea := fb.area_lt
  have hrow : fb.width * (t.terminalY + height) + fb.width ≤ fb.width * fb.height := by
    rw [← Nat.mul_succ]
    exact Nat.mul_le_mul_left _ hy
  exact Nat.mod_eq_of_lt (by omega)

/-- **The pixels that a character stores** in a cell of the screen are those of its glyph. -/
theorem mem_pixelStores_iff (htx : t.terminalX = 8 * column) (hty : t.terminalY = 8 * row)
    (hcolumn : 8 * column + 8 ≤ fb.width) (hrow : 8 * row + 8 ≤ fb.height) (hx : x < fb.width) :
    x + fb.width * y ∈ pixelStores fb font t c ↔
      x / 8 = column ∧ y / 8 = row ∧ GlyphAt font c (x % 8) (y % 8) := by
  constructor
  · intro h
    obtain ⟨height, hheight, h⟩ := List.mem_flatMap.mp h
    obtain ⟨width, hwidth, h⟩ := List.mem_filterMap.mp h
    rw [List.mem_range] at hheight hwidth
    split_ifs at h with hglyph
    rw [pixelIndex_eq (by omega) (by omega), Option.some.injEq] at h
    obtain ⟨rfl, rfl⟩ := pixel_unique (by omega) hx h
    have hin : (t.terminalX + width) % 8 = width ∧ (t.terminalY + height) % 8 = height := by omega
    refine ⟨by omega, by omega, ?_⟩
    rwa [GlyphAt, hin.1, hin.2]
  · rintro ⟨hxc, hyr, hglyph⟩
    apply List.mem_flatMap.mpr
    refine ⟨y % 8, List.mem_range.mpr (Nat.mod_lt _ (by decide)), List.mem_filterMap.mpr ?_⟩
    refine ⟨x % 8, List.mem_range.mpr (Nat.mod_lt _ (by decide)), ?_⟩
    have hplace : t.terminalX + x % 8 = x ∧ t.terminalY + y % 8 = y := by omega
    unfold GlyphAt at hglyph
    rw [if_pos hglyph, pixelIndex_eq (by omega) (by omega), hplace.1, hplace.2]

/-! ## Outputs -/

/-- The characters of an output in a cell, from a column and a row on. -/
def WrittenFrom : ℕ → ℕ → List UInt8 → ℕ → ℕ → UInt8 → Prop
  | _, _, [], _, _, _ => False
  | column, row, d :: output, x, y, c =>
    if d = 10 then WrittenFrom 0 (row + 1) output x y c
    else (column = x ∧ row % 2 ^ 61 = y ∧ d = c) ∨ WrittenFrom (column + 1) row output x y c

/-- What `WrittenFrom` says line by line. -/
def LinesWritten : ℕ → ℕ → List (List UInt8) → ℕ → ℕ → UInt8 → Prop
  | _, _, [], _, _, _ => False
  | column, row, text :: lines, x, y, c =>
    (column ≤ x ∧ row % 2 ^ 61 = y ∧ text[x - column]? = some c) ∨ LinesWritten 0 (row + 1) lines x y c

theorem writtenFrom_iff_linesWritten :
    WrittenFrom column row output x y c ↔ LinesWritten column row (output.splitOn 10) x y c := by
  induction output generalizing column row with
  | nil => simp [WrittenFrom, LinesWritten]
  | cons d output ih =>
    rw [WrittenFrom, List.splitOn_cons_eq_if_modifyHead]
    by_cases hd : d = 10
    · rw [if_pos hd, if_pos (by simpa using hd), LinesWritten, ih, List.getElem?_nil]
      simp
    · rw [if_neg hd, if_neg (by simpa using hd), ih]
      obtain ⟨text, lines, hlines⟩ := List.exists_cons_of_ne_nil (List.splitOn_ne_nil 10 output)
      rw [hlines, List.modifyHead_cons, LinesWritten, LinesWritten, ← or_assoc]
      apply or_congr_left
      -- the character is the first one of its line
      constructor
      · rintro (⟨rfl, hy, rfl⟩ | ⟨hle, hy, hc⟩)
        · exact ⟨le_rfl, hy, by simp⟩
        · refine ⟨by omega, hy, ?_⟩
          rwa [show x - column = (x - (column + 1)) + 1 by omega]
      · rintro ⟨hle, hy, hc⟩
        rcases hle.eq_or_lt with rfl | hlt
        · exact .inl ⟨rfl, hy, by simpa using hc⟩
        · rw [show x - column = (x - (column + 1)) + 1 by omega] at hc
          exact .inr ⟨hlt, hy, hc⟩

theorem linesWritten_iff : LinesWritten 0 row lines x y c ↔
    ∃ n text, lines[n]? = some text ∧ (row + n) % 2 ^ 61 = y ∧ text[x]? = some c := by
  induction lines generalizing row with
  | nil => simp [LinesWritten]
  | cons text lines ih =>
    rw [LinesWritten, ih]
    constructor
    · rintro (⟨-, hy, hc⟩ | ⟨n, text', hline, hy, hc⟩)
      · exact ⟨0, text, rfl, hy, hc⟩
      · refine ⟨n + 1, text', hline, ?_, hc⟩
        rwa [show row + (n + 1) = row + 1 + n by omega]
    · rintro ⟨n, text', hline, hy, hc⟩
      cases n with
      | zero =>
        obtain rfl := Option.some.inj hline
        exact .inl ⟨Nat.zero_le _, hy, hc⟩
      | succ n =>
        refine .inr ⟨n, text', hline, ?_, hc⟩
        rwa [show row + (n + 1) = row + 1 + n by omega] at hy

theorem written_iff : Written output x y c ↔ WrittenFrom 0 0 output x y c := by
  rw [writtenFrom_iff_linesWritten, linesWritten_iff]
  simp only [Nat.zero_add, Written]

/-- What an output from a column and a row on does to the pixels. -/
structure ShowsFrom (fb : Framebuffer) (font : Font) (column row : ℕ) (pixels : ℕ → UInt32)
    (output : List UInt8) (after : ℕ → UInt32) : Prop where
  lit : ∀ x y, x < fb.width → y < fb.height →
    (∃ c, WrittenFrom column row output (x / 8) (y / 8) c ∧ GlyphAt font c (x % 8) (y % 8)) →
      after (x + fb.width * y) = 0xFFFFFFFF
  dark : ∀ x y, x < fb.width → y < fb.height →
    (¬ ∃ c, WrittenFrom column row output (x / 8) (y / 8) c ∧ GlyphAt font c (x % 8) (y % 8)) →
      after (x + fb.width * y) = pixels (x + fb.width * y)
  outside : ∀ i, fb.width * fb.height ≤ i → after i = pixels i

/-- **Run lemma**: every character adds its glyph in its cell. -/
theorem showsFrom_run (hfits : FitsFrom fb column row output) (hx : t.terminalX = 8 * column % 2 ^ 64)
    (hy : t.terminalY = 8 * row % 2 ^ 64) (hcolumn : column ≤ fb.width / 8) :
    ShowsFrom fb font column row t.pixels output
      (Lib.run (vgaFramebufferWriteChar font (some (some fb))) t output).pixels := by
  induction output generalizing t column row with
  | nil =>
    refine ⟨fun x y _ _ h => ?_, fun _ _ _ _ _ => rfl, fun _ _ => rfl⟩
    obtain ⟨c, h, -⟩ := h
    exact h.elim
  | cons c output ih =>
    rw [run_cons]
    rw [FitsFrom] at hfits
    by_cases hc : c = 10
    · have hnewline : vgaFramebufferWriteChar font (some (some fb)) t c =
          { t with terminalX := 0, terminalY := (t.terminalY + 8) % 2 ^ 64 } := if_pos hc
      rw [if_pos hc] at hfits
      have hrest := ih (t := vgaFramebufferWriteChar font (some (some fb)) t c) hfits
        (by rw [hnewline]; rfl) (by rw [hnewline]; dsimp only; omega) (Nat.zero_le _)
      have hpixels : (vgaFramebufferWriteChar font (some (some fb)) t c).pixels = t.pixels := by rw [hnewline]
      rw [hpixels] at hrest
      have hwritten (x y : ℕ) (d : UInt8) :
          WrittenFrom column row (c :: output) x y d ↔ WrittenFrom 0 (row + 1) output x y d := by
        rw [WrittenFrom, if_pos hc]
      exact ⟨fun x y hx hy h => hrest.lit x y hx hy (by simpa only [hwritten] using h),
        fun x y hx hy h => hrest.dark x y hx hy (by simpa only [hwritten] using h), hrest.outside⟩
    · have hdraw : vgaFramebufferWriteChar font (some (some fb)) t c =
          { t with
            terminalX := (t.terminalX + 8) % 2 ^ 64
            pixels := (pixelStores fb font t c).foldl (fun m i => Function.update m i 0xFFFFFFFF) t.pixels } :=
        if_neg hc
      rw [if_neg hc] at hfits
      obtain ⟨⟨-, hend, hrow⟩, hfits⟩ := hfits
      have hwidth := fb.width_lt
      have hheight := fb.height_lt
      have hrest := ih (t := vgaFramebufferWriteChar font (some (some fb)) t c) hfits
        (by rw [hdraw]; dsimp only; omega) (by rw [hdraw]; exact hy) (by omega)
      have hpixels (i : ℕ) : (vgaFramebufferWriteChar font (some (some fb)) t c).pixels i =
          if i ∈ pixelStores fb font t c then 0xFFFFFFFF else t.pixels i := by
        rw [hdraw]
        exact foldl_update_apply _ _ _ _
      have hstores (x y : ℕ) (hx' : x < fb.width) : x + fb.width * y ∈ pixelStores fb font t c ↔
          x / 8 = column ∧ y / 8 = row % 2 ^ 61 ∧ GlyphAt font c (x % 8) (y % 8) :=
        mem_pixelStores_iff (by omega) (by omega) (by omega) (by omega) hx'
      have hwritten (x y : ℕ) (d : UInt8) : WrittenFrom column row (c :: output) x y d ↔
          (column = x ∧ row % 2 ^ 61 = y ∧ c = d) ∨ WrittenFrom (column + 1) row output x y d := by
        rw [WrittenFrom, if_neg hc]
      refine ⟨fun x y hx' hy' h => ?_, fun x y hx' hy' h => ?_, fun i hi => ?_⟩
      · by_cases hlater : ∃ d, WrittenFrom (column + 1) row output (x / 8) (y / 8) d ∧
            GlyphAt font d (x % 8) (y % 8)
        · exact hrest.lit x y hx' hy' hlater
        · -- nothing later covers the pixel: the character itself does
          obtain ⟨d, hd, hglyph⟩ := h
          rcases (hwritten ..).mp hd with ⟨hcol, hrow', rfl⟩ | hd
          · rw [hrest.dark x y hx' hy' hlater, hpixels,
              if_pos ((hstores x y hx').mpr ⟨hcol.symm, hrow'.symm, hglyph⟩)]
          · exact absurd ⟨d, hd, hglyph⟩ hlater
      · have hlater : ¬ ∃ d, WrittenFrom (column + 1) row output (x / 8) (y / 8) d ∧
            GlyphAt font d (x % 8) (y % 8) := by
          rintro ⟨d, hd, hglyph⟩
          exact h ⟨d, (hwritten ..).mpr (.inr hd), hglyph⟩
        rw [hrest.dark x y hx' hy' hlater, hpixels, if_neg]
        intro hmem
        obtain ⟨hcol, hrow', hglyph⟩ := (hstores x y hx').mp hmem
        exact h ⟨c, (hwritten ..).mpr (.inl ⟨hcol.symm, hrow'.symm, rfl⟩), hglyph⟩
      · rw [hrest.outside i hi, hpixels, if_neg]
        intro hmem
        obtain ⟨w, hw, h, hh, rfl⟩ := mem_pixelStores hmem
        have hlt : pixelIndex fb t w h < fb.width * fb.height := pixelIndex_lt (by omega) (by omega)
        omega

/-- **What the console shows**: after an output that fits the screen a pixel is white if the glyph of a
character in its cell has it, and else as it was. -/
theorem screen_shows (font : Font) (pixels : ℕ → UInt32) (h : FitsScreen fb output) :
    Shows fb font pixels output
      (Lib.run (vgaFramebufferWriteChar font (some (some fb))) (.start pixels) output) := by
  have hfits : FitsFrom fb 0 0 output := by
    rw [fitsFrom_iff_linesFit, linesFit_iff]
    simp only [Nat.zero_add]
    exact h
  have hrun : ShowsFrom fb font 0 0 pixels output
      (Lib.run (vgaFramebufferWriteChar font (some (some fb))) (.start pixels) output).pixels :=
    showsFrom_run (t := .start pixels) hfits rfl rfl (Nat.zero_le _)
  have hlit (x y : ℕ) : Lit font output x y ↔
      ∃ c, WrittenFrom 0 0 output (x / 8) (y / 8) c ∧ GlyphAt font c (x % 8) (y % 8) := by
    simp only [Lit, written_iff]
  exact ⟨fun x y hx hy hl => hrun.lit x y hx hy ((hlit x y).mp hl),
    fun x y hx hy hl => hrun.dark x y hx hy fun h => hl ((hlit x y).mpr h), hrun.outside⟩

/-- One character and an empty line behind it. -/
theorem one_character_shows : Shows oneCell (fun _ _ => 0x18) (fun _ => 0) [65, 10]
    (Lib.run (vgaFramebufferWriteChar (fun _ _ => 0x18) (some (some oneCell))) (.start fun _ => 0) [65, 10]) := by
  apply screen_shows
  have hlines : [65, 10].splitOn (10 : UInt8) = [[65], []] := by decide
  intro n text hline hne
  rw [hlines] at hline
  cases n with
  | zero =>
    obtain rfl := Option.some.inj hline
    refine ⟨by decide, by decide, fun c hc => ?_⟩
    rw [List.mem_singleton.mp hc]
    decide
  | succ n =>
    cases n with
    | zero => exact absurd (Option.some.inj hline).symm hne
    | succ n => simp at hline

end Cutesugar.Modules
