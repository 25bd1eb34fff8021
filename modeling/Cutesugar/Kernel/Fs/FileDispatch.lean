import Cutesugar.Kernel.Fs.Ext2Children
import Cutesugar.Kernel.Fs.Ramfs

/-!
# Dispatch of files

Two file systems write the field `connected_fs`. `RamfsCreateFile` stores the address of its table
of functions there, `CreateDirectoryEntry` that of the `struct FileSystem` that it imports. `ReadByte`
takes what it finds for a table of functions, `Ext2ReadByte` for a `struct FileSystem`, and no
function of the kernel makes a table of functions of which `Ext2ReadByte` is an element.

- `FileRun.Step`: files are made in any order.
- `Dispatched`: a file whose reads arrive at the reader of the file system that made it.
- `dispatch_iff`: these are the files of the ramfs.
-/

namespace Cutesugar.Kernel.Fs

open Lib

/-- Who made a file. -/
inductive Creator where
  | ramfs
  | ext2
  deriving DecidableEq

/-- What `connected_fs` may point to. -/
inductive Layout where
  | functions
  | fileSystem
  deriving DecidableEq

/-- The reader of a file system. -/
def Creator.reader (I : Image) : Creator → ℕ
  | .ramfs => I.ramfsReadByte
  | .ext2 => I.ext2ReadByte

/-- The kernel with the files made so far and the addresses of its `struct FileSystem`s. -/
structure FileRun where
  state : Ext2State
  files : List (ℕ × Creator)
  mounts : List ℕ

/-- The structure at an address. -/
def FileRun.storedAt (I : Image) (r : FileRun) (p : ℕ) : Option Layout :=
  if p = I.ramfsFunctions then some .functions
  else if p ∈ r.mounts then some .fileSystem
  else none

/-- The files that an import has made. -/
def filesIn (F : FileSystem) (visits : List (Task × Ext2State)) : List ℕ :=
  ((builtIn F visits).filter fun b => ¬ b.isDirectory).map Built.object

/-- What the kernel does with files. Everything else takes blocks of the heap for itself, and does
not write `connected_fs`. -/
inductive FileRun.Step (I : Image) (fuel : ℕ) : FileRun → FileRun → Prop where
  | create {r : FileRun} {root buffer file : ℕ} {name : List.Vector UInt8 32} {size : ℤ}
      {fs : FsState} (h : ramfsCreateFile I fuel r.state.toFsState root name buffer size =
        some (file, fs)) :
      Step I fuel r ⟨{ r.state with toFsState := fs }, r.files ++ [(file, .ramfs)], r.mounts⟩
  /-- an import that has come to any point -/
  | mount {r : FileRun} {bd : BlockDevice} {F : FileSystem} {root : ℕ}
      {visits : List (Task × Ext2State)} {tasks : List Task} {s : Ext2State}
      (hF : fileSystemOf bd = .ok F) (hsignature : signature F = 0xEF53)
      (hroot : objGetRootObject fuel r.state.kernel = some root)
      (h : Does (Task.step F (r.state.kernel.blocks r.state.kernel.mallocs) fuel)
        ([.enter [] root 2], r.state.register F) visits (tasks, s)) :
      Step I fuel r ⟨s, r.files ++ (filesIn F visits).map fun file => (file, .ext2),
        r.mounts ++ [r.state.kernel.blocks r.state.kernel.mallocs]⟩
  | work {r : FileRun} {k : State} (hblocks : k.blocks = r.state.kernel.blocks)
      (hmallocs : r.state.kernel.mallocs ≤ k.mallocs) :
      Step I fuel r { r with state := { r.state with kernel := k } }

/-- **What is asked of a file**: `ReadByte` calls the reader of the file system that made it, with
its own arguments, and takes `connected_fs` for what is stored there. -/
def Dispatched (I : Image) (r : FileRun) (file : ℕ) (creator : Creator) : Prop :=
  (∀ offset, readByte I r.state.toFsState file offset = ⟨creator.reader I, file, offset⟩) ∧
    r.storedAt I (r.state.files file).connectedFs = some .functions

variable {I : Image} {fuel file : ℕ} {s : Ext2State} {r r' : FileRun} {creator : Creator}

/-- What is stored in the files made so far. -/
structure FileRunInv (I : Image) (s : Ext2State) (r : FileRun) : Prop where
  blocks : r.state.kernel.blocks = s.kernel.blocks
  mounts : ∀ p ∈ r.mounts, Taken r.state.kernel p
  taken : ∀ f ∈ r.files, Taken r.state.kernel f.1
  ramfs : ∀ f ∈ r.files, f.2 = .ramfs → (r.state.files f.1).connectedFs = I.ramfsFunctions
  ext2 : ∀ f ∈ r.files, f.2 = .ext2 → (r.state.files f.1).connectedFs ∈ r.mounts

theorem FileRunInv.start (I : Image) (s : Ext2State) : FileRunInv I s ⟨s, [], []⟩ where
  blocks := rfl
  mounts _ hp := absurd hp List.not_mem_nil
  taken _ hf := absurd hf List.not_mem_nil
  ramfs _ hf := absurd hf List.not_mem_nil
  ext2 _ hf := absurd hf List.not_mem_nil

/-- A change of the kernel that leaves the fields of the files alone. -/
theorem FileRunInv.keep (h : FileRunInv I s r) {s' : Ext2State}
    (hblocks : s'.kernel.blocks = r.state.kernel.blocks)
    (hmallocs : r.state.kernel.mallocs ≤ s'.kernel.mallocs)
    (hfiles : ∀ f ∈ r.files, s'.files f.1 = r.state.files f.1) :
    FileRunInv I s { r with state := s' } where
  blocks := hblocks.trans h.blocks
  mounts p hp := (h.mounts p hp).mono hblocks hmallocs
  taken f hf := (h.taken f hf).mono hblocks hmallocs
  ramfs f hf hcreator := by
    dsimp only
    rw [hfiles f hf]
    exact h.ramfs f hf hcreator
  ext2 f hf hcreator := by
    dsimp only
    rw [hfiles f hf]
    exact h.ext2 f hf hcreator

/-- More files, in blocks that were handed out. -/
theorem FileRunInv.grow (h : FileRunInv I s r) {files : List (ℕ × Creator)}
    (htaken : ∀ f ∈ files, Taken r.state.kernel f.1)
    (hramfs : ∀ f ∈ files, f.2 = .ramfs → (r.state.files f.1).connectedFs = I.ramfsFunctions)
    (hext2 : ∀ f ∈ files, f.2 = .ext2 → (r.state.files f.1).connectedFs ∈ r.mounts) :
    FileRunInv I s { r with files := r.files ++ files } where
  blocks := h.blocks
  mounts := h.mounts
  taken f hf := (List.mem_append.mp hf).elim (h.taken f) (htaken f)
  ramfs f hf := (List.mem_append.mp hf).elim (h.ramfs f) (hramfs f)
  ext2 f hf := (List.mem_append.mp hf).elim (h.ext2 f) (hext2 f)

/-- One more `struct FileSystem`. -/
theorem FileRunInv.mounted (h : FileRunInv I s r) {fs : ℕ} (htaken : Taken r.state.kernel fs) :
    FileRunInv I s { r with mounts := r.mounts ++ [fs] } where
  blocks := h.blocks
  mounts p hp := by
    rcases List.mem_append.mp hp with hp | hp
    · exact h.mounts p hp
    · rw [List.mem_singleton.mp hp]
      exact htaken
  taken := h.taken
  ramfs := h.ramfs
  ext2 f hf hcreator := List.mem_append_left _ (h.ext2 f hf hcreator)

/-- The field that `RamfsCreateFile` writes. -/
theorem ramfsCreateFile_files {s s' : FsState} {root buffer : ℕ} {name : List.Vector UInt8 32}
    {size : ℤ} (h : ramfsCreateFile I fuel s root name buffer size = some (file, s')) :
    file = s.kernel.blocks s.kernel.mallocs ∧
      s'.files = Function.update s.files file ⟨size, I.ramfsFunctions⟩ ∧
      s'.kernel.blocks = s.kernel.blocks ∧ s'.kernel.mallocs = s.kernel.mallocs + 2 := by
  obtain ⟨k, hadd, h⟩ := Option.bind_eq_some_iff.mp h
  obtain ⟨rfl, rfl⟩ := Prod.mk.inj (Option.some.inj h)
  obtain ⟨hblocks, hmallocs, -, -⟩ := directoryAddChild_rest hadd
  exact ⟨rfl, rfl, hblocks, hmallocs⟩

/-- The field of a file that an import has made, and its block. -/
theorem mem_filesIn {F : FileSystem} {fs : ℕ} {c c' : Agenda Task Ext2State}
    {visits : List (Task × Ext2State)} (hb : Blocks c.2.kernel)
    (hdoes : Does (Task.step F fs fuel) c visits c') (h : file ∈ filesIn F visits) :
    (c'.2.files file).connectedFs = fs ∧ Taken c'.2.kernel file := by
  obtain ⟨b, hbuilt, rfl⟩ := List.mem_map.mp h
  obtain ⟨hmem, hfile⟩ := List.mem_filter.mp hbuilt
  have hnot : ¬ b.isDirectory = true := of_decide_eq_true hfile
  obtain ⟨hmade, i, -, hlt, hobject⟩ := builtIn_made hb hdoes hmem
  rw [Built.Made, if_neg hnot] at hmade
  obtain ⟨name, -, -, hfields⟩ := hmade
  refine ⟨congrArg FileFields.connectedFs hfields, i, hlt, ?_⟩
  rw [(does_keeps hdoes).blocks, hobject]

/-- **Step lemma**: a new file lies in a block of its own, so the files made before keep their
fields. -/
theorem FileRunInv.step (hb : Blocks s.kernel) (h : FileRunInv I s r)
    (hstep : FileRun.Step I fuel r r') : FileRunInv I s r' := by
  have hb' : Blocks r.state.kernel := ⟨h.blocks ▸ hb.nonnull, h.blocks ▸ hb.injective⟩
  cases hstep with
  | @create root buffer file name size fs hcreate =>
    -- a file in memory lies in the first block of the call, and `connected_fs` is the static structure
    obtain ⟨rfl, hfiles, hblocks, hmallocs⟩ := ramfsCreateFile_files hcreate
    have hold : FileRunInv I s { r with state := { r.state with toFsState := fs } } := by
      refine h.keep hblocks (hmallocs ▸ Nat.le_add_right ..) fun f hf => ?_
      dsimp only
      rw [hfiles]
      exact Function.update_of_ne ((h.taken f hf).ne_block hb' le_rfl) ..
    apply hold.grow
    · intro f hf
      rw [List.mem_singleton.mp hf]
      refine ⟨r.state.kernel.mallocs, ?_, ?_⟩
      · rw [hmallocs]
        exact Nat.lt_add_of_pos_right (by decide)
      · rw [hblocks]
    · intro f hf _
      rw [List.mem_singleton.mp hf]
      dsimp only
      rw [hfiles, Function.update_self]
    · intro f hf hcreator
      rw [List.mem_singleton.mp hf] at hcreator
      exact absurd hcreator (by simp)
  | @mount bd F root visits tasks s' hF hsignature hroot hdoes =>
    -- a mount: the structure of the file system is a block of its own, and so is every file
    have hkeeps := does_keeps hdoes
    have hmallocs : r.state.kernel.mallocs + 2 ≤ s'.kernel.mallocs := hkeeps.mallocs
    have hold : FileRunInv I s { r with state := s' } := by
      refine h.keep hkeeps.blocks ((Nat.le_add_right ..).trans hmallocs) fun f hf => ?_
      refine (hkeeps.objects f.1 fun i hi _ => (h.taken f hf).ne_block hb' ?_).2
      exact (Nat.le_add_right ..).trans hi
    have hb₀ : Blocks (r.state.register F).kernel := ⟨hb'.nonnull, hb'.injective⟩
    have htaken : Taken s'.kernel (r.state.kernel.blocks r.state.kernel.mallocs) :=
      ⟨r.state.kernel.mallocs, by omega, (congrFun hkeeps.blocks _).symm⟩
    apply (hold.mounted htaken).grow
    · intro f hf
      obtain ⟨file, hfile, rfl⟩ := List.mem_map.mp hf
      exact (mem_filesIn hb₀ hdoes hfile).2
    · intro f hf hcreator
      obtain ⟨file, hfile, rfl⟩ := List.mem_map.mp hf
      exact absurd hcreator (by simp)
    · intro f hf _
      obtain ⟨file, hfile, rfl⟩ := List.mem_map.mp hf
      exact List.mem_append_right _ (List.mem_singleton.mpr (mem_filesIn hb₀ hdoes hfile).1)
  | @work k hblocks hmallocs =>
    exact h.keep hblocks hmallocs fun _ _ => rfl

/-- **Run lemma**. -/
theorem FileRunInv.run (hb : Blocks s.kernel)
    (hrun : Relation.ReflTransGen (FileRun.Step I fuel) ⟨s, [], []⟩ r) : FileRunInv I s r := by
  induction hrun with
  | refl => exact .start I s
  | tail _ hstep ih => exact ih.step hb hstep

/-- A file of an ext2 image has a `struct FileSystem` where `ReadByte` looks for functions. -/
theorem FileRunInv.not_dispatched (h : FileRunInv I s r)
    (hstatic : ¬ Taken r.state.kernel I.ramfsFunctions) (hfile : (file, .ext2) ∈ r.files) :
    ¬ Dispatched I r file .ext2 := by
  rintro ⟨-, hstored⟩
  have hmount := h.ext2 _ hfile rfl
  have hne : (r.state.files file).connectedFs ≠ I.ramfsFunctions := fun heq =>
    hstatic (heq ▸ h.mounts _ hmount)
  rw [FileRun.storedAt, if_neg hne, if_pos hmount] at hstored
  exact absurd hstored (by decide)

/-- **Files whose reads arrive where they should**, in every run: those of the ramfs. -/
theorem dispatch_iff (hb : Blocks s.kernel)
    (hrun : Relation.ReflTransGen (FileRun.Step I fuel) ⟨s, [], []⟩ r)
    (hstatic : ¬ Taken r.state.kernel I.ramfsFunctions)
    (hfile : (file, creator) ∈ r.files) : Dispatched I r file creator ↔ creator = .ramfs := by
  have hinv := FileRunInv.run hb hrun
  cases creator with
  | ramfs =>
    have hconnected := hinv.ramfs _ hfile rfl
    refine iff_of_true ⟨fun offset => ?_, ?_⟩ rfl
    · dsimp only at hconnected
      simp only [readByte, hconnected, functionsAt, if_true, Creator.reader]
    · exact if_pos hconnected
  | ext2 =>
    exact iff_of_false (hinv.not_dispatched hstatic hfile) (by decide)

/-- The kernel with its variables between the places where blocks start. -/
def linkedImage : Image := { bootImage with ramfsFunctions := 0xFFFFFFFF80010020 }

theorem not_taken_linked {k : State} (h : k.blocks = emptyRoot.kernel.blocks) :
    ¬ Taken k linkedImage.ramfsFunctions := by
  rintro ⟨i, -, heq⟩
  rw [h] at heq
  change 0xFFFFFFFF80010020 = 0x200000 + 0x10000 * i at heq
  omega

/-- A file of the ramfs. -/
theorem dispatch_ramfs : ∃ r,
    Relation.ReflTransGen (FileRun.Step linkedImage 8) ⟨emptyRoot, [], []⟩ r ∧
      (0x200000, .ramfs) ∈ r.files ∧ Dispatched linkedImage r 0x200000 .ramfs := by
  obtain ⟨⟨file, fs⟩, hcreate⟩ : ∃ made, ramfsCreateFile linkedImage 8 emptyRoot.toFsState
      bootFile.root bootFile.name bootFile.buffer bootFile.size = some made :=
    Option.isSome_iff_exists.mp (by decide)
  obtain ⟨rfl, -, hblocks, -⟩ := ramfsCreateFile_files hcreate
  have hrun : Relation.ReflTransGen (FileRun.Step linkedImage 8) ⟨emptyRoot, [], []⟩ _ :=
    .single (.create hcreate)
  have hfile : (0x200000, Creator.ramfs) ∈ [((0x200000 : ℕ), Creator.ramfs)] :=
    List.mem_singleton_self _
  exact ⟨_, hrun, hfile,
    (dispatch_iff emptyRoot_clean.blocks hrun (not_taken_linked hblocks) hfile).mpr rfl⟩

/-- A file of an ext2 image: `ReadByte` calls the address 46, the name of the root directory. -/
theorem dispatch_ext2 : ∃ r,
    Relation.ReflTransGen (FileRun.Step linkedImage 8) ⟨emptyRoot, [], []⟩ r ∧
      (0x270000, .ext2) ∈ r.files ∧
      readByte linkedImage r.state.toFsState 0x270000 0 = ⟨46, 0x270000, 0⟩ ∧
      ¬ Dispatched linkedImage r 0x270000 .ext2 := by
  obtain ⟨met, m', hmet, himportable, hmap⟩ := oneFile_met 2 (.inr rfl)
  obtain ⟨entries, hold⟩ := (emptyRoot_clean.skip 2).built
  obtain ⟨p, rfl⟩ : ∃ p, met = [p] := by
    have hlen := congrArg List.length hmap
    rw [List.length_map] at hlen
    exact List.length_eq_one_iff.mp hlen
  have hobject : p.object = 7 := by simpa using congrArg (List.map fun q => q.2.2.2) hmap
  obtain ⟨v, s', hdoes, hbuilt, -⟩ := run_of_importable (s := emptyRoot.register (oneEntry 0x81))
    (oneEntry_wellFormed 0x81 (.inr rfl)) (oneEntry_reads 0x81 (.inr rfl)) .root
    (by decide) (emptyRoot_clean.skip 2).blocks (by decide : 0x1000 ≠ 0) hold hmet
    ⟨himportable.live, himportable.files, himportable.names, himportable.links⟩ 0x200000
    (fun q hq => by rw [List.mem_singleton.mp hq, hobject])
  have hF : fileSystemOf (oneEntry 0x81).blockDevice = .ok (oneEntry 0x81) := rfl
  have hrun : Relation.ReflTransGen (FileRun.Step linkedImage 8) ⟨emptyRoot, [], []⟩
      ⟨s', [] ++ (filesIn (oneEntry 0x81) v).map fun file => (file, .ext2), [] ++ [0x200000]⟩ :=
    .single (.mount hF (by decide) (by decide) hdoes)
  have hkeeps := does_keeps hdoes
  have hfiles : filesIn (oneEntry 0x81) v = [0x270000] := by
    rw [filesIn, hbuilt, List.map_singleton, Met.built, hobject]
    rfl
  have hfile : (0x270000, Creator.ext2) ∈
      [] ++ (filesIn (oneEntry 0x81) v).map fun file => (file, Creator.ext2) := by
    rw [hfiles]
    exact List.mem_singleton_self _
  have hconnected : (s'.files 0x270000).connectedFs = 0x200000 := by
    refine (mem_filesIn (emptyRoot_clean.skip 2).blocks hdoes ?_).1
    rw [hfiles]
    exact List.mem_singleton_self _
  refine ⟨_, hrun, hfile, ?_, ?_⟩
  · -- the block of the file system was handed out before the import
    have hheader := (hkeeps.objects 0x200000 fun i hi _ heq => by
      change 2 ≤ i at hi
      change 0x200000 = 0x200000 + 0x10000 * i at heq
      omega).1
    have hother : 0x200000 ≠ linkedImage.ramfsFunctions := by decide
    dsimp only at hheader ⊢
    rw [readByte, hconnected, functionsAt, if_neg hother, hheader]
    rfl
  · exact (FileRunInv.run emptyRoot_clean.blocks hrun).not_dispatched
      (not_taken_linked hkeeps.blocks) hfile

end Cutesugar.Kernel.Fs
