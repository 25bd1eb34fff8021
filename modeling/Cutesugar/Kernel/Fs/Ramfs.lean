import Cutesugar.Kernel.Fs.Filesystem
import Cutesugar.Kernel.Object.Confinement

/-!
# The file system in memory (`kernel/fs/ramfs.c`)

A file is a buffer with a size. Both functions let an offset pass that is not greater than the
size, so the cell behind the buffer and all cells in front of it are within reach.

## Structure

- `NewFile`: files made over buffers.
- `ByteFile`, `ByteRun`: files as arrays of bytes, and reads and writes on both.
- `ramfs_bytes_iff`: the runs in which files are arrays of bytes.
-/

namespace Cutesugar.Kernel.Fs

open Lib

/-! ## Functions -/

/-- The address of `data[offset]`. -/
def cellAt (data : ℕ) (offset : ℤ) : ℕ := ((data + offset) % 2 ^ 64).toNat

def ramfsReadByte (s : FsState) (file : ℕ) (offset : ℤ) : UInt8 :=
  if (s.files file).size < offset then 0 else s.mem (cellAt (s.data file) offset)

def ramfsWriteByte (s : FsState) (file : ℕ) (offset : ℤ) (byte : UInt8) : FsState :=
  if (s.files file).size < offset then s
  else
    let mem := Function.update s.mem (cellAt (s.data file) offset) byte
    { s with kernel := { s.kernel with mmu := { s.kernel.mmu with mem := mem } } }

variable (I : Image)

/-- `RamfsCreateFile`, with the 32 bytes at `name`. -/
def ramfsCreateFile (fuel : ℕ) (s : FsState) (root : ℕ) (name : List.Vector UInt8 32) (buffer : ℕ)
    (size : ℤ) : Option (ℕ × FsState) := do
  let (newFo, k) := malloc s.kernel
  let old := k.objects newFo
  let k := k.setObject newFo { header := ⟨copyName old.header.name name, 5⟩, headerList := buffer }
  let files := Function.update s.files newFo { size := size, connectedFs := I.ramfsFunctions }
  let k ← directoryAddChild fuel k root newFo
  some (newFo, { kernel := k, files := files })

/-- What a call that `ReadByte` makes returns; of the readers only the one above is run here. -/
def ReadCall.run (s : FsState) (c : ReadCall) : Option UInt8 :=
  if c.function = I.ramfsReadByte then some (ramfsReadByte s c.file c.offset) else none

/-- The state after a call that `WriteByte` makes. -/
def WriteCall.run (s : FsState) (c : WriteCall) : Option FsState :=
  if c.function = I.ramfsWriteByte then some (ramfsWriteByte s c.file c.offset c.byte) else none

/-! ## Files made over buffers -/

/-- An object that is a file over a buffer. -/
structure RamfsFile (s : FsState) (file buffer : ℕ) (size : ℤ) : Prop where
  data : s.data file = buffer
  size : (s.files file).size = size
  connectedFs : (s.files file).connectedFs = I.ramfsFunctions

variable {I} {fuel fo root buffer : ℕ} {s s' : FsState} {size : ℤ} {name : List.Vector UInt8 32}

/-- **A new file**: its fields, and what stays. -/
theorem ramfsCreateFile_spec (h : ramfsCreateFile I fuel s root name buffer size = some (fo, s'))
    (hroot : root ≠ s.kernel.blocks s.kernel.mallocs) :
    fo = s.kernel.blocks s.kernel.mallocs ∧ RamfsFile I s' fo buffer size ∧
      (s'.kernel.objects fo).header =
        ⟨copyName (s.kernel.objects fo).header.name name, 5⟩ ∧
      s'.mem = s.mem ∧ s'.kernel.blocks = s.kernel.blocks ∧
      s'.kernel.mallocs = s.kernel.mallocs + 2 ∧
      (∀ p, p ≠ fo → s'.files p = s.files p) ∧
      (∀ p, p ≠ fo → p ≠ root → s'.kernel.objects p = s.kernel.objects p) ∧
      ∀ p, p ≠ fo → (s'.kernel.objects p).header = (s.kernel.objects p).header := by
  simp only [ramfsCreateFile] at h
  obtain ⟨k, hadd, h⟩ := Option.bind_eq_some_iff.mp h
  obtain ⟨rfl, rfl⟩ := Prod.mk.inj (Option.some.inj h)
  have hspec := directoryAddChild_spec hadd
  obtain ⟨objects, lists, rfl⟩ := hspec.rest
  refine ⟨rfl, ⟨?_, ?_, ?_⟩, ?_, rfl, rfl, rfl, fun p hp => ?_, fun p hp hne => ?_,
    fun p hp => ?_⟩
  · -- adding the file to its directory changes the directory only
    have hsame := hspec.objects _ hroot.symm
    rw [FsState.data]
    dsimp only at hsame ⊢
    rw [hsame, Function.update_self]
  · dsimp only
    rw [Function.update_self]
  · dsimp only
    rw [Function.update_self]
  · rw [directoryAddChild_header hadd]
    dsimp only
    rw [Function.update_self]
  · exact Function.update_of_ne hp ..
  · exact (hspec.objects p hne).trans (Function.update_of_ne hp ..)
  · exact (directoryAddChild_header hadd p).trans (congrArg _ (Function.update_of_ne hp ..))

/-- A call of `RamfsCreateFile`. -/
structure NewFile where
  root : ℕ
  name : List.Vector UInt8 32
  buffer : ℕ
  size : ℤ

/-- A file with its buffer. -/
structure MadeFile where
  file : ℕ
  buffer : ℕ
  size : ℤ
  deriving DecidableEq

/-- The kernel with the files made so far. -/
structure Shelf where
  fs : FsState
  made : List MadeFile

def NewFile.step (I : Image) (fuel : ℕ) (r : Shelf) (c : NewFile) : Shelf :=
  match ramfsCreateFile I fuel r.fs c.root c.name c.buffer c.size with
  | some (file, fs) => ⟨fs, r.made ++ [⟨file, c.buffer, c.size⟩]⟩
  | none => r

/-- The call returns, and its first argument is a directory. -/
def NewFile.ToDirectory (I : Image) (fuel : ℕ) (r : Shelf) (c : NewFile) : Prop :=
  (ramfsCreateFile I fuel r.fs c.root c.name c.buffer c.size).isSome ∧
    (r.fs.kernel.objects c.root).header.type = 1 ∧
    ∀ i, r.fs.kernel.mallocs ≤ i → c.root ≠ r.fs.kernel.blocks i

/-- The files made so far, at addresses of their own. -/
structure ShelfInv (I : Image) (r : Shelf) : Prop where
  blocks : Blocks r.fs.kernel
  file : ∀ f ∈ r.made, RamfsFile I r.fs f.file f.buffer f.size
  type : ∀ f ∈ r.made, (r.fs.kernel.objects f.file).header.type = 5
  taken : ∀ f ∈ r.made, Taken r.fs.kernel f.file
  distinct : (r.made.map MadeFile.file).Nodup

theorem ShelfInv.start (hb : Blocks s.kernel) : ShelfInv I ⟨s, []⟩ where
  blocks := hb
  file _ hf := absurd hf List.not_mem_nil
  type _ hf := absurd hf List.not_mem_nil
  taken _ hf := absurd hf List.not_mem_nil
  distinct := List.nodup_nil

/-- **Step lemma**: files made before keep their fields, since a new file has a block of its own
and is entered into a directory. -/
theorem ShelfInv.step {r : Shelf} (h : ShelfInv I r) {c : NewFile} (hc : c.ToDirectory I fuel r) :
    ShelfInv I (c.step I fuel r) := by
  obtain ⟨hret, htype, hfresh⟩ := hc
  obtain ⟨⟨file, fs⟩, hcall⟩ := Option.isSome_iff_exists.mp hret
  obtain ⟨hfile, hnew, hheader, -, hblocks, hmallocs, hfiles, hobjects, hheaders⟩ :=
    ramfsCreateFile_spec hcall (hfresh _ le_rfl)
  -- the call writes two objects: the new file, and the directory it is entered into
  have hold : ∀ f ∈ r.made, f.file ≠ file ∧ f.file ≠ c.root := by
    intro f hf
    constructor
    · rw [hfile]
      exact (h.taken f hf).ne_block h.blocks le_rfl
    · intro heq
      have hfive := h.type f hf
      rw [heq, htype] at hfive
      exact absurd hfive (by decide)
  rw [NewFile.step, hcall]
  dsimp only
  refine { blocks := ⟨hblocks ▸ h.blocks.nonnull, hblocks ▸ h.blocks.injective⟩, file := ?_,
           type := ?_, taken := ?_, distinct := ?_ }
  · intro f hf
    rcases List.mem_append.mp hf with hf | hf
    · obtain ⟨hne, hroot⟩ := hold f hf
      obtain ⟨hdata, hsize, hconnected⟩ := h.file f hf
      refine ⟨?_, ?_, ?_⟩
      · rw [FsState.data, hobjects f.file hne hroot]
        exact hdata
      · rw [hfiles f.file hne]
        exact hsize
      · rw [hfiles f.file hne]
        exact hconnected
    · rw [List.mem_singleton.mp hf]
      exact hnew
  · intro f hf
    rcases List.mem_append.mp hf with hf | hf
    · rw [hheaders f.file (hold f hf).1]
      exact h.type f hf
    · rw [List.mem_singleton.mp hf]
      exact congrArg ObjectHeader.type hheader
  · intro f hf
    rcases List.mem_append.mp hf with hf | hf
    · exact (h.taken f hf).mono hblocks (hmallocs ▸ Nat.le_add_right ..)
    · rw [List.mem_singleton.mp hf]
      exact ⟨r.fs.kernel.mallocs, hmallocs ▸ Nat.lt_add_of_pos_right (by decide),
        by rw [hblocks, hfile]⟩
  · rw [List.map_append, List.map_singleton]
    refine List.nodup_append.mpr ⟨h.distinct, List.nodup_singleton _, fun a ha b hb => ?_⟩
    obtain ⟨f, hf, rfl⟩ := List.mem_map.mp ha
    rw [List.mem_singleton.mp hb]
    exact (hold f hf).1

/-! ## Arrays of bytes -/

/-- What a file is for: an array of `size` bytes. -/
structure ByteFile where
  size : ℤ
  bytes : ℤ → UInt8

/-- The byte at an offset, and 0 outside of the array. -/
def ByteFile.get (f : ByteFile) (offset : ℤ) : UInt8 :=
  if 0 ≤ offset ∧ offset < f.size then f.bytes offset else 0

/-- Writing a byte; outside of the array nothing is written. -/
def ByteFile.set (f : ByteFile) (offset : ℤ) (byte : UInt8) : ByteFile :=
  if 0 ≤ offset ∧ offset < f.size then { f with bytes := Function.update f.bytes offset byte }
  else f

/-- The arrays of the files made over the bytes that their buffers hold. -/
def arraysOf (m : Memory) (made : List MadeFile) (file : ℕ) : ByteFile :=
  match made.find? (fun f => f.file == file) with
  | some f => ⟨f.size, fun offset => m (cellAt f.buffer offset)⟩
  | none => ⟨0, fun _ => 0⟩

/-- The kernel beside the arrays that its files should be. -/
structure ByteRun where
  fs : FsState
  arrays : ℕ → ByteFile

inductive FileCall where
  | read (file : ℕ) (offset : ℤ)
  | write (file : ℕ) (offset : ℤ) (byte : UInt8)

def FileCall.file : FileCall → ℕ
  | .read file _ => file
  | .write file _ _ => file

/-- What a call returns and the state after it. -/
def FileCall.result (I : Image) (s : FsState) : FileCall → Option (Option UInt8 × FsState)
  | .read file offset => ((readByte I s file offset).run I s).map fun b => (some b, s)
  | .write file offset byte => ((writeByte I s file offset byte).run I s).map fun s => (none, s)

/-- A call on the kernel and on the arrays. -/
def FileCall.step (I : Image) (r : ByteRun) (c : FileCall) : ByteRun where
  fs := ((c.result I r.fs).map Prod.snd).getD r.fs
  arrays := match c with
    | .read _ _ => r.arrays
    | .write file offset byte =>
      Function.update r.arrays file ((r.arrays file).set offset byte)

/-- **What is asked of a call**: a read returns the byte of the array, and a write outside of it
changes no memory. -/
def FileCall.Lawful (I : Image) (r : ByteRun) (c : FileCall) : Prop :=
  match c with
  | .read file offset => c.result I r.fs = some (some ((r.arrays file).get offset), r.fs)
  | .write file offset _ =>
    ∃ s, c.result I r.fs = some (none, s) ∧
      (¬ (0 ≤ offset ∧ offset < (r.arrays file).size) → s.mem = r.fs.mem)

/-- The offset is one of the array or greater than its size; or the cell that it leads to instead
already holds what a read should return, or what is written. -/
def FileCall.Harmless (r : ByteRun) : FileCall → Prop
  | .read file offset => 0 ≤ offset ∧ offset < (r.arrays file).size ∨ (r.arrays file).size < offset ∨
      r.fs.mem (cellAt (r.fs.data file) offset) = 0
  | .write file offset byte =>
      0 ≤ offset ∧ offset < (r.arrays file).size ∨ (r.arrays file).size < offset ∨
        r.fs.mem (cellAt (r.fs.data file) offset) = byte

instance (r : ByteRun) : (c : FileCall) → Decidable (c.Harmless r)
  | .read _ _ => inferInstanceAs (Decidable (_ ∨ _))
  | .write _ _ _ => inferInstanceAs (Decidable (_ ∨ _))

/-- The buffers fit into the address space and do not meet. -/
structure Buffers (made : List MadeFile) : Prop where
  fits : ∀ f ∈ made, f.buffer + f.size.toNat ≤ 2 ^ 64
  apart : made.Pairwise fun f g => Apart f.buffer f.size.toNat g.buffer g.size.toNat

theorem cellAt_eq {offset : ℤ} (hfits : buffer + size.toNat ≤ 2 ^ 64) (h0 : 0 ≤ offset)
    (hlt : offset < size) : cellAt buffer offset = buffer + offset.toNat := by
  unfold cellAt
  have hmod : ((buffer : ℤ) + offset) % 2 ^ 64 = buffer + offset :=
    Int.emod_eq_of_lt (by omega) (by omega)
  rw [hmod]
  omega

/-- Cells of the arrays are all different. -/
theorem Buffers.cell_inj {made : List MadeFile} (h : Buffers made) {f g : MadeFile} (hf : f ∈ made)
    (hg : g ∈ made) {o o' : ℤ} (ho : 0 ≤ o ∧ o < f.size) (ho' : 0 ≤ o' ∧ o' < g.size)
    (heq : cellAt f.buffer o = cellAt g.buffer o') : f = g ∧ o = o' := by
  rw [cellAt_eq (h.fits f hf) ho.1 ho.2, cellAt_eq (h.fits g hg) ho'.1 ho'.2] at heq
  have hsame : f = g := by
    by_contra hne
    have hsymm : Std.Symm fun f g : MadeFile =>
        Apart f.buffer f.size.toNat g.buffer g.size.toNat := ⟨fun _ _ hapart => hapart.symm⟩
    have hapart := h.apart.forall hf hg hne
    unfold Apart at hapart
    omega
  subst hsame
  exact ⟨rfl, by omega⟩

/-- The memory holds the arrays. -/
structure ByteInv (I : Image) (made : List MadeFile) (r : ByteRun) : Prop where
  file : ∀ f ∈ made, RamfsFile I r.fs f.file f.buffer f.size
  size : ∀ f ∈ made, (r.arrays f.file).size = f.size
  bytes : ∀ f ∈ made, ∀ o, 0 ≤ o → o < f.size →
    r.fs.mem (cellAt f.buffer o) = (r.arrays f.file).bytes o

variable {made : List MadeFile} {r : ByteRun} {c : FileCall} {f : MadeFile} {offset : ℤ}
  {byte : UInt8}

theorem ByteInv.start {r : Shelf} (h : ShelfInv I r) :
    ByteInv I r.made ⟨r.fs, arraysOf r.fs.mem r.made⟩ := by
  have hfind : ∀ f ∈ r.made, r.made.find? (fun g => g.file == f.file) = some f := by
    intro f hf
    obtain ⟨g, hg⟩ : ∃ g, r.made.find? (fun g => g.file == f.file) = some g :=
      Option.isSome_iff_exists.mp (List.find?_isSome.mpr ⟨f, hf, beq_self_eq_true _⟩)
    have hsome : (g.file == f.file) = true := List.find?_some (p := fun g : MadeFile => g.file == f.file) hg
    have hfile : g.file = f.file := eq_of_beq hsome
    rw [hg, List.inj_on_of_nodup_map h.distinct (List.mem_of_find?_eq_some hg) hf hfile]
  refine { file := h.file, size := fun f hf => ?_, bytes := fun f hf o _ _ => ?_ }
  · simp only [arraysOf, hfind f hf]
  · simp only [arraysOf, hfind f hf]

/-- **Dispatch** of a file of the ramfs. -/
theorem RamfsFile.functionsAt (h : RamfsFile I s fo buffer size) :
    functionsAt I s (s.files fo).connectedFs = ⟨I.ramfsReadByte, I.ramfsWriteByte⟩ := by
  rw [h.connectedFs]
  exact if_pos rfl

theorem RamfsFile.read (h : RamfsFile I s fo buffer size) (offset : ℤ) :
    (FileCall.read fo offset).result I s =
      some (some (if size < offset then 0 else s.mem (cellAt buffer offset)), s) := by
  simp only [FileCall.result, readByte, h.functionsAt, ReadCall.run, if_true, ramfsReadByte, h.size,
    h.data, Option.map_some]

theorem RamfsFile.write (h : RamfsFile I s fo buffer size) (offset : ℤ) (byte : UInt8) :
    ∃ s', (FileCall.write fo offset byte).result I s = some (none, s') ∧
      s'.mem = (if size < offset then s.mem
        else Function.update s.mem (cellAt buffer offset) byte) ∧
      s'.kernel.objects = s.kernel.objects ∧ s'.files = s.files := by
  refine ⟨ramfsWriteByte s fo offset byte, ?_, ?_, ?_⟩
  · simp only [FileCall.result, writeByte, h.functionsAt, WriteCall.run, if_true, Option.map_some]
  · rw [ramfsWriteByte, h.size, h.data]
    split_ifs
    · rfl
    · rfl
  · rw [ramfsWriteByte]
    split_ifs
    · exact ⟨rfl, rfl⟩
    · exact ⟨rfl, rfl⟩

/-- The function that a file's writes leave to its array. -/
theorem ByteFile.set_of_not (f : ByteFile) (h : ¬ (0 ≤ offset ∧ offset < f.size)) (byte : UInt8) :
    f.set offset byte = f := if_neg h

/-- **One call**: it is lawful exactly if it is harmless. -/
theorem ByteInv.lawful_iff (h : ByteInv I made r) (hc : c.file ∈ made.map MadeFile.file) :
    c.Lawful I r ↔ c.Harmless r := by
  obtain ⟨f, hf, hfile⟩ := List.mem_map.mp hc
  have hram := h.file f hf
  have hsize := h.size f hf
  cases c with
  | read file offset =>
    obtain rfl : f.file = file := hfile
    simp only [FileCall.Lawful, FileCall.Harmless, hram.read, ByteFile.get, hsize, hram.data]
    by_cases hin : 0 ≤ offset ∧ offset < f.size
    · -- a cell of the array
      rw [if_pos hin, if_neg (by omega), h.bytes f hf offset hin.1 hin.2]
      exact iff_of_true rfl (.inl hin)
    · rw [if_neg hin]
      by_cases hbig : f.size < offset
      · rw [if_pos hbig]
        exact iff_of_true rfl (.inr (.inl hbig))
      · rw [if_neg hbig, or_iff_right hin, or_iff_right hbig]
        simp
  | write file offset byte =>
    obtain rfl : f.file = file := hfile
    obtain ⟨s', hresult, hmem, -⟩ := hram.write offset byte
    simp only [FileCall.Lawful, FileCall.Harmless, hresult, hsize, hram.data]
    have hlaw : (∃ s, some (none, s') = some ((none : Option UInt8), s) ∧
        (¬ (0 ≤ offset ∧ offset < f.size) → s.mem = r.fs.mem)) ↔
        (¬ (0 ≤ offset ∧ offset < f.size) → s'.mem = r.fs.mem) := by
      constructor
      · rintro ⟨s, hs, hsame⟩
        obtain ⟨-, rfl⟩ := Prod.mk.inj (Option.some.inj hs)
        exact hsame
      · exact fun hsame => ⟨s', rfl, hsame⟩
    rw [hlaw, hmem]
    by_cases hin : 0 ≤ offset ∧ offset < f.size
    · exact iff_of_true (fun hout => absurd hin hout) (.inl hin)
    · by_cases hbig : f.size < offset
      · rw [if_pos hbig]
        exact iff_of_true (fun _ => rfl) (.inr (.inl hbig))
      · rw [if_neg hbig, or_iff_right hin, or_iff_right hbig]
        constructor
        · intro hsame
          have hcell := congrFun (hsame hin) (cellAt f.buffer offset)
          rw [Function.update_self] at hcell
          exact hcell.symm
        · intro hcell _
          rw [← hcell, Function.update_eq_self]

/-- **Step lemma**: after a lawful call the memory still holds the arrays. -/
theorem ByteInv.step (h : ByteInv I made r) (hb : Buffers made)
    (hd : (made.map MadeFile.file).Nodup) (hc : c.file ∈ made.map MadeFile.file)
    (hlaw : c.Lawful I r) : ByteInv I made (c.step I r) := by
  obtain ⟨f, hf, hfile⟩ := List.mem_map.mp hc
  have hram := h.file f hf
  cases c with
  | read file offset =>
    obtain rfl : f.file = file := hfile
    have hsame : (FileCall.read f.file offset).step I r = r := by
      rw [FileCall.step, hram.read]
      rfl
    rw [hsame]
    exact h
  | write file offset byte =>
    obtain rfl : f.file = file := hfile
    obtain ⟨s', hresult, hmem, hobjects, hfiles⟩ := hram.write offset byte
    obtain ⟨s₁, hs₁, hout⟩ := hlaw
    obtain rfl : s' = s₁ := (Prod.mk.inj (Option.some.inj (hresult.symm.trans hs₁))).2
    have hsize := h.size f hf
    rw [FileCall.step, hresult]
    dsimp only [Option.map_some, Option.getD_some]
    have hset : ∀ g ∈ made, (Function.update r.arrays f.file
        ((r.arrays f.file).set offset byte) g.file).size = g.size := by
      intro g hg
      rcases eq_or_ne g.file f.file with heq | hne
      · rw [heq, Function.update_self, ByteFile.set]
        split_ifs
        · exact heq ▸ h.size g hg
        · exact heq ▸ h.size g hg
      · rw [Function.update_of_ne hne]
        exact h.size g hg
    refine { file := fun g hg => ?_, size := hset, bytes := fun g hg o h0 hlt => ?_ }
    · obtain ⟨hdata, hgsize, hconnected⟩ := h.file g hg
      refine ⟨?_, ?_, ?_⟩
      · rw [FsState.data, hobjects]
        exact hdata
      · rw [hfiles]
        exact hgsize
      · rw [hfiles]
        exact hconnected
    · dsimp only
      by_cases hin : 0 ≤ offset ∧ offset < f.size
      · -- one cell of one array changes
        rw [hmem, if_neg (by omega)]
        have hcells : cellAt g.buffer o = cellAt f.buffer offset → g = f ∧ o = offset :=
          fun heq => hb.cell_inj hg hf ⟨h0, hlt⟩ hin heq
        rcases eq_or_ne g f with rfl | hne
        · rw [Function.update_self, ByteFile.set, if_pos (hsize.symm ▸ hin)]
          dsimp only
          rcases eq_or_ne o offset with rfl | ho
          · rw [Function.update_self, Function.update_self]
          · rw [Function.update_of_ne ho, Function.update_of_ne fun heq => ho (hcells heq).2]
            exact h.bytes g hg o h0 hlt
        · have hfile : g.file ≠ f.file := fun heq => hne (List.inj_on_of_nodup_map hd hg hf heq)
          rw [Function.update_of_ne hfile, Function.update_of_ne fun heq => hne (hcells heq).1]
          exact h.bytes g hg o h0 hlt
      · -- nothing was written
        rw [← hsize] at hin
        rw [hout hin, ByteFile.set_of_not _ hin, Function.update_eq_self]
        exact h.bytes g hg o h0 hlt

/-- **Files are arrays of bytes** along a run of reads and writes exactly if every call of the run
is harmless: its offset is one of the array or greater than the size, or the cell it leads to
instead holds what the call returns or writes. -/
theorem ramfs_bytes_iff (I : Image) (hb : Blocks s.kernel) {creations : List NewFile} {shelf : Shelf}
    (hcreate : Along (NewFile.step I fuel) (NewFile.ToDirectory I fuel) ⟨s, []⟩ creations)
    (hshelf : run (NewFile.step I fuel) ⟨s, []⟩ creations = shelf) (hbuffers : Buffers shelf.made)
    {calls : List FileCall} (hcalls : ∀ c ∈ calls, c.file ∈ shelf.made.map MadeFile.file) :
    Along (FileCall.step I) (FileCall.Lawful I) ⟨shelf.fs, arraysOf shelf.fs.mem shelf.made⟩ calls ↔
      Along (FileCall.step I) FileCall.Harmless ⟨shelf.fs, arraysOf shelf.fs.mem shelf.made⟩
        calls := by
  subst hshelf
  have hshelf := hcreate.invariant (ShelfInv.start hb) fun r c h hc => h.step hc
  refine along_iff_of_guarded (along_const.mpr hcalls) (ByteInv.start hshelf) ?_ ?_
  · exact fun r c h hc hlaw => h.step hbuffers hshelf.distinct hc hlaw
  · exact fun r c h hc => h.lawful_iff hc

/-- Addresses of the functions in the kernel. -/
def bootImage : Image where
  ramfsReadByte := 0xFFFFFFFF80004000
  ramfsWriteByte := 0xFFFFFFFF80004040
  ext2ReadByte := 0xFFFFFFFF80004080
  ramfsFunctions := 0xFFFFFFFF80010000

/-- The kernel with its root directory, and a file of four bytes over the buffer at `0x5000`. -/
def bootFs : FsState := ⟨bootDirectories, fun _ => ⟨0, 0⟩⟩

def bootFile : NewFile := ⟨0x1000, List.Vector.replicate 32 98, 0x5000, 4⟩

def bootShelf : Shelf := run (NewFile.step bootImage 8) ⟨bootFs, []⟩ [bootFile]

theorem bootShelf_along :
    Along (NewFile.step bootImage 8) (NewFile.ToDirectory bootImage 8) ⟨bootFs, []⟩ [bootFile] := by
  refine ⟨⟨by decide, by decide, fun i _ => ?_⟩, trivial⟩
  change 0x1000 ≠ 0x200000 + 0x10000 * i
  omega

/-- Writes and reads within the file, and a read beyond it. -/
theorem ramfs_bytes_boot :
    Along (FileCall.step bootImage) (FileCall.Lawful bootImage)
      ⟨bootShelf.fs, arraysOf bootShelf.fs.mem bootShelf.made⟩
      [.write 0x200000 3 7, .read 0x200000 3, .write 0x200000 0 9, .read 0x200000 5] :=
  (ramfs_bytes_iff bootImage ⟨bootKernel_start.blocks.nonnull, bootKernel_start.blocks.injective⟩
    bootShelf_along (Eq.refl bootShelf) ⟨by decide, by decide⟩
    (by decide)).mpr (by decide)

/-- A write behind the last byte and one in front of the first change memory. -/
theorem write_outside :
    ¬ Along (FileCall.step bootImage) (FileCall.Lawful bootImage)
      ⟨bootShelf.fs, arraysOf bootShelf.fs.mem bootShelf.made⟩ [.write 0x200000 4 7] ∧
    ¬ Along (FileCall.step bootImage) (FileCall.Lawful bootImage)
      ⟨bootShelf.fs, arraysOf bootShelf.fs.mem bootShelf.made⟩ [.write 0x200000 (-1) 7] := by
  have hinv : ByteInv bootImage bootShelf.made
      ⟨bootShelf.fs, arraysOf bootShelf.fs.mem bootShelf.made⟩ := by
    refine ByteInv.start (bootShelf_along.invariant (ShelfInv.start ?_) fun r c h hc => h.step hc)
    exact ⟨bootKernel_start.blocks.nonnull, bootKernel_start.blocks.injective⟩
  refine ⟨fun hrun => ?_, fun hrun => ?_⟩
  · exact absurd ((hinv.lawful_iff (by decide)).mp hrun.1) (by decide)
  · exact absurd ((hinv.lawful_iff (by decide)).mp hrun.1) (by decide)

end Cutesugar.Kernel.Fs
