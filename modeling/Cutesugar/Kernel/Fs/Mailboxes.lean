import Cutesugar.Kernel.Fs.FileStreams

/-!
# Files as mailboxes (`libc/stdio/stdio.c`, `kernel/arch/ps2.c`)

`fgetc` reads the first byte of a file, wherever its stream stands, `fputc` through a new stream writes there, and
`ps2_handler` writes there what it makes of a key, between any two system calls. So a file is a mailbox for one
character: what comes in replaces what was there.

- `fgetc`, `ps2Handler`: the functions.
- `StreamRun`: system calls of streams and keys, in any order.
- `Mailboxes`: for each file the character that came in last.
- `streams_are_mailboxes`: all characters that `fgetc` returns come from the mailboxes.
-/

namespace Cutesugar.Kernel.Fs

open Lib Libc

/-! ## The functions -/

/-- `fgetc`: what it returns at once, or the system call whose result it returns. -/
def fgetc (typeOf : ℕ → ℕ) (stream : Option File) : ℤ ⊕ SystemCall :=
  match stream with
  | none => .inl (-1)
  | some stream =>
    match typeOf stream.object with
    | 2 => .inl 0
    | 5 => .inr ⟨3, stream.object, 0, 0⟩
    | _ => .inr ⟨0, stream.object, 0, 0⟩

/-- `ps2_keymap`. -/
def ps2Keymap : List UInt8 :=
  [32, 69, 49, 50, 51, 52, 53, 54, 55, 56, 57, 48, 45, 61, 8, 9,
    81, 87, 69, 82, 84, 89, 85, 73, 79, 80, 91, 93, 28, 63, 65, 83, 68, 70, 71,
    72, 74, 75, 76, 59, 39, 96, 63, 92, 90, 88, 67, 86, 66, 78, 77, 44, 46, 47, 54,
    42, 56, 32]

variable (I : Image)

/-- `ps2_handler` for a byte of the keyboard; `none` where it reads behind the table. -/
def ps2Handler (s : FsState) (ps2File : ℕ) (key : UInt8) : Option FsState :=
  if key < 0x3A then do
    let c ← ps2Keymap[key.toNat]?
    (writeByte I s ps2File 0 c).run I s
  else some s

/-- `ReadByte`, the system call that `fgetc` makes for a file. -/
def readCall (s : FsState) (c : SystemCall) : Option UInt8 :=
  match c.number with
  | 3 => (readByte I s c.object c.offset).run I s
  | _ => none

/-! ## Runs -/

inductive CharEvent where
  | fputc (stream : File) (c : UInt8)
  | fgetc (stream : File)
  | ps2Handler (key : UInt8)

/-- The kernel, and the characters that `fgetc` has returned so far. -/
structure StreamRun where
  fs : FsState
  got : List UInt8

def StreamRun.step (ps2File : ℕ) (r : StreamRun) : CharEvent → Option StreamRun
  | .fputc stream c => do
    let fs ← systemCall I r.fs (fputc r.fs.typeOf stream c)
    some { r with fs := fs }
  | .fgetc stream => do
    -- of a file, always a system call
    let call ← (Fs.fgetc r.fs.typeOf (some stream)).getRight?
    let c ← readCall I r.fs call
    some { r with got := r.got ++ [c] }
  | .ps2Handler key => do
    let fs ← ps2Handler I r.fs ps2File key
    some { r with fs := fs }

/-- For each file the character that came in last, and those that were taken. -/
structure Mailboxes where
  box : ℕ → UInt8
  got : List UInt8

def Mailboxes.step (ps2File : ℕ) (m : Mailboxes) : CharEvent → Mailboxes
  | .fputc stream c => if stream.position = 0 then { m with box := Function.update m.box stream.object c } else m
  | .fgetc stream => { m with got := m.got ++ [m.box stream.object] }
  | .ps2Handler key =>
    if h : key.toNat < ps2Keymap.length then { m with box := Function.update m.box ps2File ps2Keymap[key.toNat] }
    else m

/-- Streams are of files, and stand in them or behind their end, not at it. -/
def CharEvent.On (made : List MadeFile) : CharEvent → Prop
  | .fputc stream _ => ∃ f ∈ made, f.file = stream.object ∧
    (0 ≤ stream.position.toInt ∧ stream.position.toInt < f.size ∨ f.size < stream.position.toInt)
  | .fgetc stream => ∃ f ∈ made, f.file = stream.object
  | .ps2Handler _ => True

instance (made : List MadeFile) : (e : CharEvent) → Decidable (e.On made)
  | .fputc .. => inferInstanceAs (Decidable (∃ _ ∈ _, _))
  | .fgetc .. => inferInstanceAs (Decidable (∃ _ ∈ _, _))
  | .ps2Handler .. => inferInstanceAs (Decidable True)

/-! ## One event -/

/-- The first bytes of the files are what the mailboxes hold. -/
structure BoxInv (made : List MadeFile) (s : FsState) (box : ℕ → UInt8) : Prop where
  file : ∀ f ∈ made, RamfsFile I s f.file f.buffer f.size
  type : ∀ f ∈ made, s.typeOf f.file = 5
  first : ∀ f ∈ made, s.mem (cellAt f.buffer 0) = box f.file

/-- Files over buffers of their own, none of them empty. -/
structure Separate (made : List MadeFile) : Prop where
  buffers : Buffers made
  nodup : (made.map MadeFile.file).Nodup
  nonempty : ∀ f ∈ made, 0 < f.size

variable {I} {made : List MadeFile} {s : FsState} {box : ℕ → UInt8} {f : MadeFile} {offset : ℤ} {ps2File : ℕ}
  {e : CharEvent} {es : List CharEvent} {fuel : ℕ}

/-- A first byte changes only if it is the one that is written. -/
theorem BoxInv.write (h : BoxInv I made s box) (hmade : Separate made) (hf : f ∈ made)
    (hoffset : 0 ≤ offset ∧ offset < f.size ∨ f.size < offset) (c : UInt8) :
    ∃ s', (writeByte I s f.file offset c).run I s = some s' ∧
      BoxInv I made s' (if offset = 0 then Function.update box f.file c else box) := by
  obtain ⟨s', hresult, hmem, hobjects, hfiles⟩ := (h.file f hf).write offset c
  obtain ⟨s₁, hrun, heq⟩ := Option.map_eq_some_iff.mp hresult
  obtain rfl : s₁ = s' := (Prod.mk.inj heq).2
  have hsize := hmade.nonempty f hf
  refine ⟨s₁, hrun, fun g hg => ?_, fun g hg => ?_, fun g hg => ?_⟩
  · obtain ⟨hdata, hgsize, hconnected⟩ := h.file g hg
    refine ⟨?_, ?_, ?_⟩
    · rw [FsState.data, hobjects]
      exact hdata
    · rw [hfiles]
      exact hgsize
    · rw [hfiles]
      exact hconnected
  · rw [FsState.typeOf, hobjects]
    exact h.type g hg
  · rw [hmem]
    -- a byte behind the file is dropped, and one inside falls on the first cell only at offset 0
    rcases hoffset with hin | hbehind
    · rw [if_neg (by omega)]
      have hcells : cellAt g.buffer 0 = cellAt f.buffer offset → g = f ∧ 0 = offset := fun heq =>
        hmade.buffers.cell_inj hg hf ⟨le_rfl, hmade.nonempty g hg⟩ hin heq
      by_cases hzero : offset = 0
      · subst hzero
        rw [if_pos rfl]
        rcases eq_or_ne g f with rfl | hne
        · rw [Function.update_self, Function.update_self]
        · have hfile : g.file ≠ f.file := fun heq => hne (List.inj_on_of_nodup_map hmade.nodup hg hf heq)
          rw [Function.update_of_ne hfile, Function.update_of_ne fun heq => hne (hcells heq).1]
          exact h.first g hg
      · rw [if_neg hzero, Function.update_of_ne fun heq => hzero (hcells heq).2.symm]
        exact h.first g hg
    · rw [if_pos hbehind, if_neg (by omega)]
      exact h.first g hg

/-- **Keys** that are accepted have an entry in the table. -/
theorem lt_length_ps2Keymap (key : UInt8) : key < 0x3A ↔ key.toNat < ps2Keymap.length := UInt8.lt_iff_toNat_lt

/-- **Step lemma.** -/
theorem BoxInv.step (h : BoxInv I made s box) (hmade : Separate made)
    (hps2 : ps2File ∈ made.map MadeFile.file) (he : e.On made) (got : List UInt8) :
    ∃ r, StreamRun.step I ps2File ⟨s, got⟩ e = some r ∧
      BoxInv I made r.fs (Mailboxes.step ps2File ⟨box, got⟩ e).box ∧
      r.got = (Mailboxes.step ps2File ⟨box, got⟩ e).got := by
  cases e with
  | fputc stream c =>
    obtain ⟨f, hf, hfile, hoffset⟩ := he
    obtain ⟨s', hrun, hinv⟩ := h.write hmade hf hoffset c
    have htype : s.typeOf stream.object = 5 := hfile ▸ h.type f hf
    have hput : fputc s.typeOf stream c = ⟨4, stream.object, stream.position.toInt, c⟩ := by
      simp only [fputc, htype]
    have hcall : systemCall I s (fputc s.typeOf stream c) = some s' := by
      rw [hput, ← hfile]
      exact hrun
    have hzero : stream.position.toInt = 0 ↔ stream.position = 0 := by
      rw [← Int64.toInt_inj]
      rfl
    refine ⟨⟨s', got⟩, ?_, ?_, ?_⟩
    · simp only [StreamRun.step, hcall, bind, Option.bind_some]
    · simp only [hzero, hfile] at hinv
      simp only [Mailboxes.step]
      split_ifs at hinv ⊢
      · exact hinv
      · exact hinv
    · simp only [Mailboxes.step]
      split_ifs
      · rfl
      · rfl
  | fgetc stream =>
    obtain ⟨f, hf, hfile⟩ := he
    have htype : s.typeOf stream.object = 5 := hfile ▸ h.type f hf
    -- the read at offset 0 gives what the box holds
    have hread : (readByte I s stream.object 0).run I s = some (box stream.object) := by
      have hresult := (h.file f hf).read 0
      have hsize := hmade.nonempty f hf
      rw [if_neg (by omega), h.first f hf] at hresult
      obtain ⟨b, hrun, heq⟩ := Option.map_eq_some_iff.mp hresult
      rw [← hfile, hrun]
      exact (Prod.mk.inj heq).1
    refine ⟨⟨s, got ++ [box stream.object]⟩, ?_, h, rfl⟩
    simp only [StreamRun.step, Fs.fgetc, htype, Sum.getRight?_inr, readCall, hread, bind, Option.bind_some]
  | ps2Handler key =>
    obtain ⟨f, hf, rfl⟩ := List.mem_map.mp hps2
    have hkey := lt_length_ps2Keymap key
    -- the keymap covers exactly the scan codes that the handler lets through
    by_cases hlt : key < 0x3A
    · have hin := hkey.mp hlt
      obtain ⟨s', hrun, hinv⟩ :=
        h.write hmade hf (.inl ⟨le_rfl, hmade.nonempty f hf⟩) ps2Keymap[key.toNat]
      have hcall : ps2Handler I s f.file key = some s' := by
        rw [ps2Handler, if_pos hlt, List.getElem?_eq_getElem hin]
        exact hrun
      refine ⟨⟨s', got⟩, ?_, ?_, ?_⟩
      · simp only [StreamRun.step, hcall, bind, Option.bind_some]
      · rw [if_pos rfl] at hinv
        simp only [Mailboxes.step]
        rw [dif_pos hin]
        exact hinv
      · simp only [Mailboxes.step]
        rw [dif_pos hin]
    · have hcall : ps2Handler I s f.file key = some s := if_neg hlt
      refine ⟨⟨s, got⟩, ?_, ?_, ?_⟩
      · simp only [StreamRun.step, hcall, bind, Option.bind_some]
      · simp only [Mailboxes.step]
        rw [dif_neg (mt hkey.mpr hlt)]
        exact h
      · simp only [Mailboxes.step]
        rw [dif_neg (mt hkey.mpr hlt)]

/-! ## Runs -/

/-- **Run lemma.** -/
theorem BoxInv.run (h : BoxInv I made s box) (hmade : Separate made)
    (hps2 : ps2File ∈ made.map MadeFile.file) (hes : ∀ e ∈ es, e.On made) (got : List UInt8) :
    ∃ r, es.foldlM (StreamRun.step I ps2File) ⟨s, got⟩ = some r ∧
      r.got = (Lib.run (Mailboxes.step ps2File) ⟨box, got⟩ es).got := by
  induction es generalizing s box got with
  | nil => exact ⟨⟨s, got⟩, rfl, rfl⟩
  | cons e es ih =>
    obtain ⟨he, hes⟩ := List.forall_mem_cons.mp hes
    obtain ⟨r, hstep, hinv, hgot⟩ := h.step hmade hps2 he got
    obtain ⟨r', hrun, hsame⟩ := ih hinv hes r.got
    refine ⟨r', ?_, ?_⟩
    · rw [List.foldlM_cons, hstep]
      exact hrun
    · rw [hsame, run_cons, hgot]

end Cutesugar.Kernel.Fs
