import Cutesugar.Kernel.Fs.Ramfs
import Cutesugar.Libc.Stdio

/-!
# Streams over files (`libc/stdio/stdio.c` on the ramfs)

A stream of a file comes with whatever position the heap held in its block: `fopen` does not set it,
and no function moves it. `fputc` writes there each time, `fprintf` writes the characters of its format
to the first byte, and `fputstr`, which puts the arguments, has no case for a file.

- `fopen`, `SystemCall.run`: streams, and what the kernel does on a system call of theirs.
- `Delivered`: a text is written to a file.
- `streams_deliver_iff`: when it is.
-/

namespace Cutesugar.Kernel.Fs

open Lib Libc

/-- `fopen`, with what the heap holds in the block for the stream. -/
def fopen (fuel depth : ℕ) (s : FsState) (block : File) (filename mode : Option (List UInt8)) :
    Except Libc.Fault (Option File) :=
  match mode, filename with
  | some _, some filename => do
    let object ← resolveObjectName fuel s.kernel depth 0 (some filename)
    .ok (if object = 0 then none else some { block with object := object })
  | _, _ => .ok none

/-- `object->type`. -/
def FsState.typeOf (s : FsState) (object : ℕ) : ℕ := (s.kernel.objects object).header.type

variable (I : Image)

/-- `GetCurrentProcessId` and `WriteByte`, the two system calls that a stream of a file makes. -/
def systemCall (s : FsState) (c : SystemCall) : Option FsState :=
  match c.number with
  | 0 => some s
  | 4 => (writeByte I s c.object c.offset c.char).run I s
  | _ => none

def systemCalls (s : FsState) (calls : List SystemCall) : Option FsState :=
  calls.foldlM (systemCall I) s

/-- The calls send the text, each character with `WriteByte`, and the file starts with it afterwards. -/
structure Delivered (s : FsState) (file : ℕ) (calls : List SystemCall) (str : List UInt8) : Prop where
  chars : calls.map SystemCall.char = str
  numbers : ∀ c ∈ calls, c.number = 4
  bytes : ∃ s', systemCalls I s calls = some s' ∧
    ∀ (i : ℕ) c, str[i]? = some c → ramfsReadByte s' file i = c

/-- Writing the text to a single byte of the file leaves the text. -/
def Lies (s : FsState) (file : ℕ) (offset : ℤ) (str : List UInt8) : Prop :=
  ∀ (i : ℕ) c, str[i]? = some c →
    (if offset = i then str.getLast?.getD 0 else ramfsReadByte s file i) = c

variable {I} {s s' : FsState} {file buffer : ℕ} {size offset : ℤ} {str : List UInt8}

/-- `fopen` leaves the position to the heap. -/
theorem fopen_position {fuel depth : ℕ} {block stream : File} {filename mode : Option (List UInt8)}
    (h : fopen fuel depth s block filename mode = .ok (some stream)) :
    stream.position = block.position := by
  cases mode with
  | none => cases h
  | some mode =>
    cases filename with
    | none => cases h
    | some filename =>
      obtain ⟨object, -, h⟩ := bind_eq_ok.mp h
      have hstream := Except.ok.inj h
      split_ifs at hstream
      obtain rfl := Option.some.inj hstream
      rfl

/-- One byte. -/
theorem systemCall_write (h : RamfsFile I s file buffer size) (offset : ℤ) (byte : UInt8) :
    ∃ s', systemCall I s ⟨4, file, offset, byte⟩ = some s' ∧ RamfsFile I s' file buffer size ∧
      s'.mem = if size < offset then s.mem else Function.update s.mem (cellAt buffer offset) byte := by
  have hcall : systemCall I s ⟨4, file, offset, byte⟩ = some (ramfsWriteByte s file offset byte) := by
    simp only [systemCall, writeByte, functionsAt, h.connectedFs, if_true, WriteCall.run]
  refine ⟨_, hcall, ?_⟩
  rw [ramfsWriteByte, h.size]
  split_ifs
  · exact ⟨h, rfl⟩
  · refine ⟨⟨h.data, h.size, h.connectedFs⟩, ?_⟩
    rw [h.data]

/-- The values of a `long`. -/
def Long (offset : ℤ) : Prop := -2 ^ 63 ≤ offset ∧ offset < 2 ^ 63

/-- Offsets are at cells of their own. -/
theorem cellAt_inj {a b : ℤ} (ha : Long a) (hb : Long b) :
    cellAt buffer a = cellAt buffer b ↔ a = b := by
  unfold Long at ha hb
  unfold cellAt
  omega

/-- What one write changes. -/
theorem ramfsReadByte_write (h : RamfsFile I s file buffer size) (hsize : size < 2 ^ 63)
    (hoffset : Long offset) (byte : UInt8) :
    ∃ s', systemCall I s ⟨4, file, offset, byte⟩ = some s' ∧ RamfsFile I s' file buffer size ∧
      ∀ i : ℕ, (i : ℤ) < size →
        ramfsReadByte s' file i = if offset = i then byte else ramfsReadByte s file i := by
  obtain ⟨s', hcall, hfile, hmem⟩ := systemCall_write h offset byte
  refine ⟨s', hcall, hfile, fun i hi => ?_⟩
  have hlong : Long i := ⟨by omega, by omega⟩
  have hcell : cellAt buffer i = cellAt buffer offset ↔ (i : ℤ) = offset := cellAt_inj hlong hoffset
  have hread (t : FsState) (ht : RamfsFile I t file buffer size) :
      ramfsReadByte t file i = t.mem (cellAt buffer i) := by
    rw [ramfsReadByte, ht.size, ht.data, if_neg (by omega)]
  rw [hread s' hfile, hread s h, hmem]
  by_cases heq : offset = i
  · subst heq
    rw [if_neg (by omega), if_pos rfl, Function.update_self]
  · have hne : cellAt buffer i ≠ cellAt buffer offset := fun hsame => heq (hcell.mp hsame).symm
    rw [if_neg heq]
    split_ifs
    · rfl
    · exact Function.update_of_ne hne ..

/-- **Writes to one byte**: the last one stays. -/
theorem systemCalls_writes (h : RamfsFile I s file buffer size) (hsize : size < 2 ^ 63)
    (hoffset : Long offset) (str : List UInt8) :
    ∃ s', systemCalls I s (str.map fun c => ⟨4, file, offset, c⟩) = some s' ∧
      ∀ i : ℕ, (i : ℤ) < size → ramfsReadByte s' file i =
        if offset = i then str.getLast?.getD (ramfsReadByte s file i)
        else ramfsReadByte s file i := by
  induction str generalizing s with
  | nil =>
    refine ⟨s, rfl, fun i _ => ?_⟩
    split_ifs
    · rfl
    · rfl
  | cons c str ih =>
    obtain ⟨s₁, hcall, hfile, hread⟩ := ramfsReadByte_write h hsize hoffset c
    obtain ⟨s₂, hcalls, hreads⟩ := ih hfile
    refine ⟨s₂, ?_, fun i hi => ?_⟩
    · rw [systemCalls, List.map_cons, List.foldlM_cons, hcall]
      exact hcalls
    · rw [hreads i hi, hread i hi]
      split_ifs with heq
      · rw [List.getLast?_cons]
        rfl
      · rfl

/-- A text that is written to one byte of a file is delivered if and only if it lies there afterwards. -/
theorem delivered_writes_iff (h : RamfsFile I s file buffer size) (hsize : size < 2 ^ 63)
    (hoffset : Long offset) (hfits : (str.length : ℤ) ≤ size) :
    Delivered I s file (str.map fun c => ⟨4, file, offset, c⟩) str ↔ Lies s file offset str := by
  obtain ⟨s', hcalls, hreads⟩ := systemCalls_writes h hsize hoffset str
  have hbyte : ∀ (i : ℕ) c, str[i]? = some c → ramfsReadByte s' file i =
      if offset = i then str.getLast?.getD 0 else ramfsReadByte s file i := by
    intro i c hc
    obtain ⟨hlt, -⟩ := List.getElem?_eq_some_iff.mp hc
    rw [hreads i (by omega)]
    split_ifs
    · have hne : str ≠ [] := List.ne_nil_of_length_pos (by omega)
      rw [List.getLast?_eq_some_getLast hne]
      rfl
    · rfl
  constructor
  · rintro ⟨-, -, s₁, hs₁, hbytes⟩ i c hc
    obtain rfl : s₁ = s' := Option.some.inj (hs₁.symm.trans hcalls)
    rw [← hbyte i c hc]
    exact hbytes i c hc
  · intro hlies
    refine ⟨?_, ?_, s', hcalls, fun i c hc => ?_⟩
    · rw [List.map_map]
      exact List.map_id str
    · intro call hcall
      obtain ⟨c, -, rfl⟩ := List.mem_map.mp hcall
      rfl
    · rw [hbyte i c hc]
      exact hlies i c hc

/-- **Streams of files**: a text written with one `fputc` after the other is delivered if and only if
it lies in the file once its last character is at the position that the heap held; one written with
`fprintf` if and only if no argument is put, and it lies in the file once its last character is in the
first byte. -/
theorem streams_deliver_iff {fuel depth : ℕ} {block stream : File}
    {filename mode : Option (List UInt8)}
    (hopen : fopen fuel depth s block filename mode = .ok (some stream))
    (htype : s.typeOf stream.object = 5) (hfile : RamfsFile I s stream.object buffer size)
    (hsize : size < 2 ^ 63) (hfits : (str.length : ℤ) ≤ size) :
    (Delivered I s stream.object (str.map (fputc s.typeOf stream)) str ↔
      Lies s stream.object block.position.toInt str) ∧
    ∀ ps args rest, args.length = conversions ps → expand ps args = str →
      ((∃ calls, fprintf s.typeOf (some stream) (some (text ps ++ 0 :: rest)) args = .ok (1, calls) ∧
          Delivered I s stream.object calls str) ↔
        (∀ w ∈ words ps args, w = [0]) ∧ Lies s stream.object 0 str) := by
  have hposition : stream.position = block.position := fopen_position hopen
  have hzero : Long 0 := ⟨by decide, by decide⟩
  constructor
  · -- every `fputc` writes at the same position
    have hcalls : fputc s.typeOf stream = fun c =>
        ⟨4, stream.object, block.position.toInt, c⟩ := by
      funext c
      rw [fputc, htype, hposition]
      rfl
    rw [hcalls]
    exact delivered_writes_iff hfile hsize
      ⟨Int64.le_toInt _, Int64.toInt_lt _⟩ hfits
  · intro ps args rest hargs hexpand
    rw [fprintf_eq hargs, htype]
    constructor
    · rintro ⟨calls, hcalls, hdelivered⟩
      obtain ⟨-, rfl⟩ := Prod.mk.inj (Except.ok.inj hcalls)
      -- the text of an argument is passed to system call 0, which writes nothing, so there is none
      have hwords : ∀ w ∈ words ps args, w = [0] := by
        intro w hw
        by_contra hne
        obtain ⟨c, hc⟩ := exists_converted hw hne clearNumStr
        exact absurd (hdelivered.numbers _ hc) (show ¬ 0 = 4 by decide)
      refine ⟨hwords, ?_⟩
      rw [formatted_of_nul hwords, hexpand] at hdelivered
      exact (delivered_writes_iff hfile hsize hzero hfits).mp hdelivered
    · rintro ⟨hwords, hlies⟩
      refine ⟨_, rfl, ?_⟩
      rw [formatted_of_nul hwords, hexpand]
      exact (delivered_writes_iff hfile hsize hzero hfits).mpr hlies

/-- The kernel with one process, and the file `./f` of four bytes over the buffer at `0x5000`. -/
def streamFs : FsState where
  kernel := { bootUnprivileged with
    objects := Function.update bootObjects 0x1500 ⟨⟨nameField [102] short_f, 5⟩, 0x5000⟩ }
  files := fun _ => ⟨4, bootImage.ramfsFunctions⟩

theorem ramfsFile_streamFs : RamfsFile bootImage streamFs 0x1500 0x5000 4 := ⟨rfl, rfl, rfl⟩

/-- The same file with an `A` in its second byte. -/
def writtenFs : FsState where
  kernel := { streamFs.kernel with
    mmu := { streamFs.kernel.mmu with mem := Function.update streamFs.mem 0x5001 65 } }
  files := streamFs.files

theorem ramfsFile_writtenFs : RamfsFile bootImage writtenFs 0x1500 0x5000 4 := ⟨rfl, rfl, rfl⟩

/-- A stream of it, with a position that the heap held. -/
theorem fopen_boot {s : FsState}
    (h : resolveObjectName 8 s.kernel 8 0 (some [46, 47, 102, 0]) = .ok 0x1500) (position : Int64) :
    fopen 8 8 s ⟨0, position⟩ (some [46, 47, 102, 0]) (some [119, 0]) =
      .ok (some ⟨0x1500, position⟩) := by
  rw [fopen, h]
  rfl

theorem fopen_streamFs : fopen 8 8 streamFs ⟨0, 0⟩ (some [46, 47, 102, 0]) (some [119, 0]) =
    .ok (some ⟨0x1500, 0⟩) := fopen_boot (by decide +kernel) 0

theorem fopen_writtenFs : fopen 8 8 writtenFs ⟨0, 0⟩ (some [46, 47, 102, 0]) (some [119, 0]) =
    .ok (some ⟨0x1500, 0⟩) := fopen_boot (by decide +kernel) 0

/-- Two characters that are the same, with a position of 0 that the heap held: the first one is
overwritten by the second, which stands in the second byte already. -/
theorem stream_delivers :
    fopen 8 8 writtenFs ⟨0, 0⟩ (some [46, 47, 102, 0]) (some [119, 0]) = .ok (some ⟨0x1500, 0⟩) ∧
    Delivered bootImage writtenFs 0x1500 ([65, 65].map (fputc writtenFs.typeOf ⟨0x1500, 0⟩)) [65, 65] ∧
    ∃ calls, fprintf writtenFs.typeOf (some ⟨0x1500, 0⟩) (some [65, 65, 0]) [] = .ok (1, calls) ∧
      Delivered bootImage writtenFs 0x1500 calls [65, 65] := by
  have hlies : Lies writtenFs 0x1500 0 [65, 65] := by
    intro i c hc
    obtain ⟨hlt, -⟩ := List.getElem?_eq_some_iff.mp hc
    obtain rfl | rfl : i = 0 ∨ i = 1 := by
      simp only [List.length_cons, List.length_nil] at hlt
      omega
    · exact Option.some.inj hc
    · exact Option.some.inj hc
  obtain ⟨hputc, hprintf⟩ := streams_deliver_iff fopen_writtenFs (by decide) ramfsFile_writtenFs
    (by decide) (show (([65, 65] : List UInt8).length : ℤ) ≤ 4 by decide)
  have hletter : (65 : UInt8) ≠ 0 ∧ (65 : UInt8) ≠ 37 := by decide
  exact ⟨fopen_writtenFs, hputc.mpr hlies,
    (hprintf [.literal 65 hletter, .literal 65 hletter] [] [] rfl rfl).mpr ⟨by simp [words], hlies⟩⟩

/-- Two characters end up on the first byte, and a number ends up nowhere. -/
theorem stream_fails :
    fopen 8 8 streamFs ⟨0, 0⟩ (some [46, 47, 102, 0]) (some [119, 0]) = .ok (some ⟨0x1500, 0⟩) ∧
    ¬ Delivered bootImage streamFs 0x1500 ([65, 66].map (fputc streamFs.typeOf ⟨0x1500, 0⟩)) [65, 66] ∧
    (∀ calls, fprintf streamFs.typeOf (some ⟨0x1500, 0⟩) (some [37, 100, 0]) [7] = .ok (1, calls) →
      ¬ Delivered bootImage streamFs 0x1500 calls [55]) := by
  refine ⟨fopen_streamFs, fun h => ?_, fun calls hcalls h => ?_⟩
  · have hcalls : [65, 66].map (fputc streamFs.typeOf ⟨0x1500, 0⟩) =
        [65, 66].map fun c => ⟨4, 0x1500, 0, c⟩ := by decide
    rw [hcalls, delivered_writes_iff ramfsFile_streamFs (by decide) ⟨by decide, by decide⟩
      (by decide)] at h
    exact absurd (h 0 65 rfl) (by decide)
  · have hprintf : fprintf streamFs.typeOf (some ⟨0x1500, 0⟩) (some [37, 100, 0]) [7] =
        .ok (1, [⟨0, 0x1500, 0, 55⟩]) := by decide
    rw [hprintf] at hcalls
    obtain ⟨-, rfl⟩ := Prod.mk.inj (Except.ok.inj hcalls)
    exact absurd (h.numbers _ (List.mem_singleton_self _)) (by decide)

end Cutesugar.Kernel.Fs
