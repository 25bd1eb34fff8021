import Cutesugar.Kernel.Fs.Ext2Machine
import Mathlib.Data.List.Perm.Subperm

/-!
# The objects of an import

An import on a heap whose blocks to come have null links. The header lists of the directories stay
null-terminated lists, and grow by the objects that are made from the entries.

- `CleanDirs`: the lists of the directories, and the blocks to come.
- `builtIn`: the objects that a run of the machine makes.
- `CleanDirs.run`: what is in the directories after a run.
-/

namespace Cutesugar.Kernel.Fs

open Lib

/-! ## Directories on a clean heap -/

/-- The header lists of the directories hold what was added to them, and the blocks that `malloc`
has not handed out yet have null links. -/
structure CleanDirs (k : State) (dirs : List ℕ) (added : ℕ → List ℕ) : Prop where
  blocks : Blocks k
  built : ∃ entries, DirsBuilt k dirs added entries
  clean : ∀ i, k.mallocs ≤ i →
    (k.lists (k.blocks i)).next = 0 ∧ (k.objects (k.blocks i)).headerList = 0

/-- A new block with an object in it. -/
abbrev plant (k : State) (X : Directory) : State :=
  { k with mallocs := k.mallocs + 1, objects := Function.update k.objects (k.blocks k.mallocs) X }

variable {k k' : State} {dirs : List ℕ} {added entries : ℕ → List ℕ} {X : Directory}
  {fuel d o : ℕ}

theorem plant_self : (plant k X).objects (k.blocks k.mallocs) = X := Function.update_self ..

theorem CleanDirs.plant (h : CleanDirs k dirs added) : CleanDirs (plant k X) dirs added where
  blocks := ⟨h.blocks.nonnull, h.blocks.injective⟩
  built := by
    obtain ⟨entries, hbuilt⟩ := h.built
    refine ⟨entries, hbuilt.mono (fun d hd => ?_) rfl rfl (Nat.le_succ _)⟩
    exact congrArg _ (Function.update_of_ne (hbuilt.fresh d hd _ le_rfl) ..)
  clean i hi := by
    obtain ⟨hnext, hlist⟩ := h.clean i (Nat.le_of_succ_le hi)
    refine ⟨hnext, ?_⟩
    have hne : k.blocks i ≠ k.blocks k.mallocs := fun heq =>
      (Nat.lt_of_succ_le hi).ne' (h.blocks.injective heq)
    exact (congrArg _ (Function.update_of_ne hne ..)).trans hlist

/-- A new directory with an empty list. -/
theorem CleanDirs.plantDirectory (h : CleanDirs k dirs added) (hX : X.headerList = 0) :
    CleanDirs (Fs.plant k X) (dirs ++ [k.blocks k.mallocs])
      (Function.update added (k.blocks k.mallocs) []) where
  blocks := h.plant.blocks
  built := by
    obtain ⟨entries, hbuilt⟩ := (h.plant (X := X)).built
    obtain ⟨_, hold⟩ := h.built
    refine ⟨_, hbuilt.newDirectory (fun hmem => hold.fresh _ hmem _ le_rfl rfl) ?_ h.plant.blocks ?_⟩
    · exact taken_next (k := 0) rfl (Nat.lt_succ_self _)
    · exact (congrArg Directory.headerList (Function.update_self ..)).trans hX
  clean := h.plant.clean

/-- **One more child**. -/
theorem CleanDirs.addChild (h : CleanDirs k dirs added) (hd : d ∈ dirs)
    (hadd : directoryAddChild fuel k d o = some k') :
    CleanDirs k' dirs (Function.update added d (added d ++ [o])) := by
  obtain ⟨entries, hbuilt⟩ := h.built
  have hspec := directoryAddChild_spec hadd
  have hclean := h.clean k.mallocs le_rfl
  obtain ⟨objects, lists, hk'⟩ := hspec.rest
  have hblocks : k'.blocks = k.blocks := by rw [hk']
  have hmallocs : k'.mallocs = k.mallocs + 1 := by rw [hk']
  refine ⟨⟨hblocks ▸ h.blocks.nonnull, hblocks ▸ h.blocks.injective⟩,
    ⟨_, hbuilt.addChild h.blocks hd hspec hclean.1⟩, fun i hi => ?_⟩
  rw [hblocks]
  obtain ⟨hnext, hlist⟩ := h.clean i (by omega)
  have hne : k.blocks i ≠ d := fun heq => hbuilt.fresh d hd i (by omega) heq.symm
  constructor
  · -- a link that is written is that of an entry of the list
    have hframe := (appendNode_spec (hbuilt.chain d hd) (hbuilt.nodup d hd)
      (fun t ht => (hbuilt.taken d hd t ht).nonnull h.blocks)
      (fun hmem => (hbuilt.taken d hd _ hmem).ne_block h.blocks le_rfl rfl) hspec.append).2
    exact (hframe _ fun hmem => (hbuilt.taken d hd _ hmem).ne_block h.blocks (by omega) rfl).trans
      hnext
  · rw [hspec.objects _ hne]
    exact hlist

/-- A list has no more entries than blocks were handed out. -/
theorem length_entries_le (h : DirsBuilt k dirs added entries) (hd : d ∈ dirs) :
    (entries d).length ≤ k.mallocs := by
  have hsub : entries d ⊆ (List.range k.mallocs).map k.blocks := by
    intro t ht
    obtain ⟨i, hi, rfl⟩ := h.taken d hd t ht
    exact List.mem_map_of_mem (List.mem_range.mpr hi)
  have hle := (List.subperm_of_subset (h.nodup d hd) hsub).length_le
  rwa [List.length_map, List.length_range] at hle

/-- With a bound as large as the number of blocks handed out a child can be added. -/
theorem addChild_some (h : DirsBuilt k dirs added entries) (hb : Blocks k) (hd : d ∈ dirs)
    (hd0 : d ≠ 0) (hfuel : k.mallocs ≤ fuel) : ∃ k', directoryAddChild fuel k d o = some k' := by
  have hchain := h.chain d hd
  have hnonnull : ∀ t ∈ entries d, t ≠ 0 := fun t ht => (h.taken d hd t ht).nonnull hb
  have hlen := length_entries_le h hd
  unfold directoryAddChild
  rw [if_neg hd0]
  split_ifs with hnull
  · exact ⟨_, rfl⟩
  · rcases List.eq_nil_or_concat' (entries d) with hnil | ⟨init, last, hlast⟩
    · rw [hnil] at hchain
      exact absurd hchain hnull
    · rw [hlast] at hchain hnonnull hlen
      have hnodup := hlast ▸ h.nodup d hd
      obtain ⟨hinit, hend, hgo⟩ := hchain.before_last hnodup hnonnull
      rw [List.length_append] at hlen
      have hwalk : walk k.nextEntry (fun t => k.nextEntry t == 0) fuel (k.objects d).headerList =
          some last := by
        apply walk_of_chain hinit
        · rw [hend]
          rfl
        · exact fun t ht => beq_eq_false_iff_ne.mpr (hgo t ht).1
        · omega
      exact ⟨_, congrArg (Option.bind · _) hwalk⟩

theorem CleanDirs.addChild_some (h : CleanDirs k dirs added) (hd : d ∈ dirs) (hd0 : d ≠ 0)
    (hfuel : k.mallocs ≤ fuel) : ∃ k', directoryAddChild fuel k d o = some k' := by
  obtain ⟨entries, hbuilt⟩ := h.built
  exact Fs.addChild_some hbuilt h.blocks hd hd0 hfuel

/-! ## New objects -/

variable {F : FileSystem} {fs root inode dir : ℕ} {s s' : Ext2State} {name : List.Vector UInt8 32}
  {fileName : List UInt8}

/-- What a creation leaves: one new object, and one more node for each time it was added. -/
structure Creates (s s' : Ext2State) (root object nodes : ℕ) : Prop where
  fresh : object = s.kernel.blocks s.kernel.mallocs
  blocks : s'.kernel.blocks = s.kernel.blocks
  mallocs : s'.kernel.mallocs = s.kernel.mallocs + 1 + nodes
  header : ∀ p, p ≠ object → (s'.kernel.objects p).header = (s.kernel.objects p).header
  objects : ∀ p, p ≠ object → p ≠ root → s'.kernel.objects p = s.kernel.objects p
  files : ∀ p, p ≠ object → s'.files p = s.files p
  held : s'.held = s.held
  fileSystems : s'.fileSystems = s.fileSystems

theorem orFault_eq_ok {α : Type} {x : Option α} {a : α} : orFault root x = .ok a ↔ x = some a := by
  cases x with
  | none => exact iff_of_false (by simp [orFault]) (by simp)
  | some b => simp [orFault]

/-- **A new directory** is added to its parent twice. -/
theorem addDirectory_spec (h : addDirectory fuel s root name = .ok (dir, s')) :
    dir = s.kernel.blocks s.kernel.mallocs ∧ s' = { s with kernel := s'.kernel } ∧
    ∃ k, directoryAddChild fuel (plant s.kernel
        ⟨⟨copyName (s.kernel.objects dir).header.name name, 1⟩,
          (s.kernel.objects dir).headerList⟩) root dir = some k ∧
      directoryAddChild fuel k root dir = some s'.kernel := by
  obtain ⟨⟨d, k⟩, hcreate, h⟩ := Libc.bind_eq_ok.mp h
  obtain ⟨k', hadd, h⟩ := Libc.bind_eq_ok.mp h
  obtain ⟨rfl, rfl⟩ := Prod.mk.inj (Except.ok.inj h)
  obtain ⟨k₁, hfirst, heq⟩ := Option.bind_eq_some_iff.mp (orFault_eq_ok.mp hcreate)
  obtain ⟨rfl, rfl⟩ := Prod.mk.inj (Option.some.inj heq)
  exact ⟨rfl, rfl, k₁, hfirst, orFault_eq_ok.mp hadd⟩

/-- **A new file** is added to its parent once. -/
theorem addFile_spec (h : addFile fuel fs s root inode fileName = .ok s') :
    fileName.length ≤ 128 ∧
      directoryAddChild fuel (plant s.kernel
        ⟨copyHeader (s.kernel.objects (s.kernel.blocks s.kernel.mallocs)).header fileName, inode⟩) root
        (s.kernel.blocks s.kernel.mallocs) = some s'.kernel ∧
      s' = { s with
        kernel := s'.kernel
        files := Function.update s.files (s.kernel.blocks s.kernel.mallocs)
          ⟨copyOverSize fileName (s.files (s.kernel.blocks s.kernel.mallocs)).size, fs⟩ } := by
  simp only [addFile] at h
  split_ifs at h with hlong
  obtain ⟨k, hadd, h⟩ := Libc.bind_eq_ok.mp h
  obtain rfl := Except.ok.inj h
  exact ⟨Nat.le_of_not_lt hlong, orFault_eq_ok.mp hadd, rfl⟩

/-- What adding a child changes. -/
theorem directoryAddChild_rest (h : directoryAddChild fuel k d o = some k') :
    k'.blocks = k.blocks ∧ k'.mallocs = k.mallocs + 1 ∧
      (∀ p, p ≠ d → k'.objects p = k.objects p) ∧
      ∀ p, (k'.objects p).header = (k.objects p).header := by
  have hspec := directoryAddChild_spec h
  obtain ⟨objects, lists, hk'⟩ := hspec.rest
  exact ⟨by rw [hk'], by rw [hk'], hspec.objects, directoryAddChild_header h⟩

theorem addDirectory_creates (h : addDirectory fuel s root name = .ok (dir, s')) :
    Creates s s' root dir 2 := by
  obtain ⟨rfl, hs', k, hfirst, hsecond⟩ := addDirectory_spec h
  obtain ⟨hblocks₁, hmallocs₁, hobjects₁, hheader₁⟩ := directoryAddChild_rest hfirst
  obtain ⟨hblocks₂, hmallocs₂, hobjects₂, hheader₂⟩ := directoryAddChild_rest hsecond
  refine ⟨rfl, hblocks₂.trans hblocks₁, ?_, fun p hp => ?_, fun p hp hroot => ?_, fun p _ => ?_, ?_,
    ?_⟩
  · rw [hmallocs₂, hmallocs₁]
  · rw [hheader₂, hheader₁]
    exact congrArg _ (Function.update_of_ne hp ..)
  · rw [hobjects₂ p hroot, hobjects₁ p hroot]
    exact Function.update_of_ne hp ..
  · rw [hs']
  · rw [hs']
  · rw [hs']

theorem addFile_creates (h : addFile fuel fs s root inode fileName = .ok s') :
    Creates s s' root (s.kernel.blocks s.kernel.mallocs) 1 := by
  obtain ⟨-, hadd, hs'⟩ := addFile_spec h
  obtain ⟨hblocks, hmallocs, hobjects, hheader⟩ := directoryAddChild_rest hadd
  refine ⟨rfl, hblocks, hmallocs, fun p hp => ?_, fun p hp hroot => ?_, fun p hp => ?_, ?_, ?_⟩
  · rw [hheader]
    exact congrArg _ (Function.update_of_ne hp ..)
  · rw [hobjects p hroot]
    exact Function.update_of_ne hp ..
  · rw [hs']
    exact Function.update_of_ne hp ..
  · rw [hs']
  · rw [hs']

/-- Blocks that were handed out in between do not matter. -/
theorem CleanDirs.skip (h : CleanDirs k dirs added) (n : ℕ) :
    CleanDirs { k with mallocs := k.mallocs + n } dirs added where
  blocks := ⟨h.blocks.nonnull, h.blocks.injective⟩
  built := by
    obtain ⟨entries, hbuilt⟩ := h.built
    exact ⟨entries, hbuilt.mono (fun _ _ => rfl) rfl rfl (Nat.le_add_right ..)⟩
  clean i hi := h.clean i ((Nat.le_add_right ..).trans hi)

/-- The lists after a new directory. -/
theorem CleanDirs.addDirectory (h : CleanDirs s.kernel dirs added) (hroot : root ∈ dirs)
    (hadd : addDirectory fuel s root name = .ok (dir, s')) :
    ∃ added', CleanDirs s'.kernel (dirs ++ [dir]) added' ∧
      ∀ d ∈ dirs, added' d = added d ++ if d = root then [dir, dir] else [] := by
  obtain ⟨rfl, -, k, hfirst, hsecond⟩ := addDirectory_spec hadd
  obtain ⟨_, hbuilt⟩ := h.built
  have hplant := h.plantDirectory (X := ⟨⟨copyName (s.kernel.objects
    (s.kernel.blocks s.kernel.mallocs)).header.name name, 1⟩,
      (s.kernel.objects (s.kernel.blocks s.kernel.mallocs)).headerList⟩) (h.clean _ le_rfl).2
  have hmem : root ∈ dirs ++ [s.kernel.blocks s.kernel.mallocs] := List.mem_append_left _ hroot
  refine ⟨_, (hplant.addChild hmem hfirst).addChild hmem hsecond, fun d hd => ?_⟩
  have hne : d ≠ s.kernel.blocks s.kernel.mallocs := hbuilt.fresh d hd _ le_rfl
  rcases eq_or_ne d root with rfl | hd'
  · rw [Function.update_self, Function.update_self, Function.update_of_ne hne, if_pos rfl,
      List.append_assoc]
    rfl
  · rw [Function.update_of_ne hd', Function.update_of_ne hd', Function.update_of_ne hne, if_neg hd',
      List.append_nil]

/-- The lists after a new file. -/
theorem CleanDirs.addFile (h : CleanDirs s.kernel dirs added) (hroot : root ∈ dirs)
    (hadd : addFile fuel fs s root inode fileName = .ok s') :
    ∃ added', CleanDirs s'.kernel dirs added' ∧
      ∀ d ∈ dirs, added' d =
        added d ++ if d = root then [s.kernel.blocks s.kernel.mallocs] else [] := by
  obtain ⟨-, hadd, -⟩ := addFile_spec hadd
  refine ⟨_, h.plant.addChild hroot hadd, fun d hd => ?_⟩
  rcases eq_or_ne d root with rfl | hd'
  · rw [Function.update_self, if_pos rfl]
  · rw [Function.update_of_ne hd', if_neg hd', List.append_nil]

/-! ## Runs -/

/-- The object that a task adds to. -/
def Task.parent : Task → ℕ
  | .enter _ root _ => root
  | .block f _ _ => f.root
  | .sector f _ _ _ => f.root
  | .entry f _ _ _ _ _ => f.root

/-- An object made from an entry: `offset` is the place of the entry in the block. -/
structure Built where
  root : ℕ
  object : ℕ
  block : ℕ
  offset : ℕ
  entry : List UInt8
  isDirectory : Bool

/-- The place in its block of an entry in a buffer that holds one sector. -/
def offsetOf (F : FileSystem) (count : ℕ) (bytes : List UInt8) : ℕ :=
  count * F.blockDevice.blockSize + (2048 - bytes.length)

/-- The object that is made in a step. -/
def builtAt (F : FileSystem) (p : Task × Ext2State) : Option Built :=
  match p.1 with
  | .entry f i count limit index bytes =>
    let object := p.2.kernel.blocks (p.2.kernel.mallocs + 2)
    if index < limit then
      match kindOf F bytes with
      | .ok (.directory _ _) => some ⟨f.root, object, i, offsetOf F count bytes, bytes, true⟩
      | .ok (.file _ _) => some ⟨f.root, object, i, offsetOf F count bytes, bytes, false⟩
      | _ => none
    else none
  | _ => none

/-- The objects that are made in a run. -/
def builtIn (F : FileSystem) (visits : List (Task × Ext2State)) : List Built :=
  visits.filterMap (builtAt F)

/-- How often an object is added to its parent. -/
def Built.children (b : Built) : List ℕ :=
  if b.isDirectory then [b.object, b.object] else [b.object]

/-- What a directory has been given. -/
def childrenOf (d : ℕ) (bs : List Built) : List ℕ :=
  (bs.filter fun b => b.root = d).flatMap Built.children

theorem childrenOf_append (d : ℕ) (bs cs : List Built) :
    childrenOf d (bs ++ cs) = childrenOf d bs ++ childrenOf d cs := by
  simp [childrenOf]

theorem childrenOf_singleton (d : ℕ) (b : Built) :
    childrenOf d [b] = if d = b.root then b.children else [] := by
  split_ifs with h
  · simp [childrenOf, h]
  · simp [childrenOf, Ne.symm h]

variable {t : Task} {new w w' : List Task} {visits : List (Task × Ext2State)}

theorem more_parent {f : Frame} {i count size : ℕ} {limit index : ℤ} {bytes : List UInt8} {x : Task}
    (hx : x ∈ Task.more f i count limit index bytes size) : x.parent = f.root := by
  unfold Task.more at hx
  split_ifs at hx
  · exact absurd hx List.not_mem_nil
  · rw [List.mem_singleton.mp hx]
    rfl

theorem readInode_eq_ok {object : Option (List UInt8)} {index : ℕ}
    (h : readInode F s index = .ok (object, s')) :
    index < 1 ∧ object = none ∧ s' = s ∨
      1 ≤ index ∧ (∃ inode, inodeAt F index = .ok inode ∧ object = some inode) ∧ s' = s.skip 2 := by
  unfold readInode at h
  split_ifs at h with hnull
  · obtain ⟨rfl, rfl⟩ := Prod.mk.inj (Except.ok.inj h)
    exact .inl ⟨hnull, rfl, rfl⟩
  · obtain ⟨inode, hinode, h⟩ := Libc.bind_eq_ok.mp h
    obtain ⟨rfl, rfl⟩ := Prod.mk.inj (Except.ok.inj h)
    exact .inr ⟨by omega, ⟨inode, hinode, rfl⟩, rfl⟩

/-- **What a step does**: it hands out blocks, or it makes a directory or a file. -/
theorem Task.step_cases (h : Task.step F fs fuel s t = .ok (new, s')) :
    (builtAt F (t, s) = none ∧ (∀ x ∈ new, x.parent = t.parent) ∧ ∃ n, s' = s.skip n) ∨
    (∃ f i count limit index bytes inode name dir, t = .entry f i count limit index bytes ∧
      index < limit ∧ kindOf F bytes = .ok (.directory inode name) ∧
      addDirectory fuel (s.skip 2) f.root name = .ok (dir, s') ∧
      new = .enter f.path dir inode ::
        Task.more f i count limit index bytes (field bytes 4 2)) ∨
    ∃ f i count limit index bytes inode name, t = .entry f i count limit index bytes ∧
      index < limit ∧ kindOf F bytes = .ok (.file inode name) ∧
      addFile fuel fs (s.skip 2) f.root inode name = .ok s' ∧
      new = Task.more f i count limit index bytes (field bytes 4 2) := by
  cases t with
  | enter path root index =>
    left
    obtain ⟨⟨object, s₁⟩, hread, h⟩ := Libc.bind_eq_ok.mp h
    -- `ReadInode` takes two blocks unless the index is null
    have hskip : ∃ n, s₁ = s.skip n := by
      rcases readInode_eq_ok hread with ⟨-, -, rfl⟩ | ⟨-, -, rfl⟩
      · exact ⟨0, rfl⟩
      · exact ⟨2, rfl⟩
    cases object with
    | none =>
      obtain ⟨rfl, rfl⟩ := Prod.mk.inj (Except.ok.inj h)
      exact ⟨rfl, by simp, hskip⟩
    | some inode =>
      obtain ⟨type, -, h⟩ := Libc.bind_eq_ok.mp h
      split_ifs at h with htype
      · obtain ⟨rfl, rfl⟩ := Prod.mk.inj (Except.ok.inj h)
        exact ⟨rfl, by simp, hskip⟩
      · obtain ⟨rfl, rfl⟩ := Prod.mk.inj (Except.ok.inj h)
        refine ⟨rfl, fun x hx => ?_, hskip⟩
        obtain ⟨i, -, rfl⟩ := List.mem_map.mp hx
        rfl
  | block f inode i =>
    left
    obtain ⟨pointer, -, h⟩ := Libc.bind_eq_ok.mp h
    split_ifs at h with hzero
    · obtain ⟨rfl, rfl⟩ := Prod.mk.inj (Except.ok.inj h)
      exact ⟨rfl, by simp, 0, rfl⟩
    · obtain ⟨sectors, -, h⟩ := Libc.bind_eq_ok.mp h
      obtain ⟨rfl, rfl⟩ := Prod.mk.inj (Except.ok.inj h)
      refine ⟨rfl, fun x hx => ?_, 0, rfl⟩
      obtain ⟨count, -, rfl⟩ := List.mem_map.mp hx
      rfl
  | sector f i pointer count =>
    left
    obtain ⟨location, -, h⟩ := Libc.bind_eq_ok.mp h
    obtain ⟨rfl, rfl⟩ := Prod.mk.inj (Except.ok.inj h)
    refine ⟨rfl, fun x hx => ?_, 1, rfl⟩
    rw [List.mem_singleton.mp hx]
    rfl
  | entry f i count limit index bytes =>
    rw [Task.step] at h
    split_ifs at h with hlt
    · obtain ⟨kind, hkind, h⟩ := Libc.bind_eq_ok.mp h
      obtain ⟨size, hsize, h⟩ := Libc.bind_eq_ok.mp h
      obtain ⟨-, rfl⟩ := readField_eq_ok.mp hsize
      cases kind with
      -- an entry makes an object only if it has a name of its own
      | blank =>
        left
        obtain ⟨rfl, rfl⟩ := Prod.mk.inj (Except.ok.inj h)
        refine ⟨?_, fun x hx => more_parent hx, 0, rfl⟩
        simp only [builtAt, hkind, if_pos hlt]
      | dots =>
        left
        obtain ⟨rfl, rfl⟩ := Prod.mk.inj (Except.ok.inj h)
        refine ⟨?_, fun x hx => ?_, 0, rfl⟩
        · simp only [builtAt, hkind, if_pos hlt]
        · rw [List.mem_singleton.mp hx]
          rfl
      | directory inode name =>
        right; left
        obtain ⟨⟨dir, s₁⟩, hadd, h⟩ := Libc.bind_eq_ok.mp h
        obtain ⟨rfl, rfl⟩ := Prod.mk.inj (Except.ok.inj h)
        exact ⟨f, i, count, limit, index, bytes, inode, name, dir, rfl, hlt, hkind, hadd, rfl⟩
      | file inode name =>
        right; right
        obtain ⟨s₁, hadd, h⟩ := Libc.bind_eq_ok.mp h
        obtain ⟨rfl, rfl⟩ := Prod.mk.inj (Except.ok.inj h)
        exact ⟨f, i, count, limit, index, bytes, inode, name, rfl, hlt, hkind, hadd, rfl⟩
    · left
      obtain ⟨rfl, rfl⟩ := Prod.mk.inj (Except.ok.inj h)
      refine ⟨?_, by simp, 0, rfl⟩
      simp only [builtAt, if_neg hlt]

/-- **Step lemma**: the lists of the directories grow by the object that is made. -/
theorem CleanDirs.step (h : CleanDirs s.kernel dirs added) (ht : t.parent ∈ dirs)
    (hstep : Task.step F fs fuel s t = .ok (new, s')) :
    ∃ dirs' added', CleanDirs s'.kernel dirs' added' ∧ dirs ⊆ dirs' ∧ (∀ x ∈ new, x.parent ∈ dirs') ∧
      ∀ d ∈ dirs, added' d = added d ++ childrenOf d (builtAt F (t, s)).toList := by
  rcases Task.step_cases hstep with ⟨hnone, hnew, n, rfl⟩ |
    ⟨f, i, count, limit, index, bytes, inode, name, dir, rfl, hlt, hkind, hadd, rfl⟩ |
    ⟨f, i, count, limit, index, bytes, inode, name, rfl, hlt, hkind, hadd, rfl⟩
  · refine ⟨dirs, added, h.skip n, List.Subset.refl _, fun x hx => ?_, fun d hd => ?_⟩
    · rw [hnew x hx]
      exact ht
    · rw [hnone]
      exact (List.append_nil _).symm
  · obtain ⟨added', hclean, hadded⟩ := (h.skip 2).addDirectory (s := s.skip 2) ht hadd
    -- a directory becomes one of those that entries are added to
    have hdir : dir = s.kernel.blocks (s.kernel.mallocs + 2) := (addDirectory_spec hadd).1
    have hbuilt : builtAt F (.entry f i count limit index bytes, s) =
        some ⟨f.root, dir, i, offsetOf F count bytes, bytes, true⟩ := by
      simp only [builtAt, hkind, if_pos hlt, hdir]
    refine ⟨_, added', hclean, List.subset_append_left .., fun x hx => ?_, fun d hd => ?_⟩
    · rcases List.mem_cons.mp hx with rfl | hx
      · exact List.mem_append_right _ (List.mem_singleton_self _)
      · rw [more_parent hx]
        exact List.mem_append_left _ ht
    · rw [hadded d hd, hbuilt, Option.toList_some, childrenOf_singleton]
      rfl
  · obtain ⟨added', hclean, hadded⟩ := (h.skip 2).addFile (s := s.skip 2) ht hadd
    have hbuilt : builtAt F (.entry f i count limit index bytes, s) =
        some ⟨f.root, s.kernel.blocks (s.kernel.mallocs + 2), i, offsetOf F count bytes, bytes,
          false⟩ := by
      simp only [builtAt, hkind, if_pos hlt]
    refine ⟨_, added', hclean, List.Subset.refl _, fun x hx => ?_, fun d hd => ?_⟩
    · rw [more_parent hx]
      exact ht
    · rw [hadded d hd, hbuilt, Option.toList_some, childrenOf_singleton]
      rfl

/-- **Run lemma**: after a run every directory has been given the objects that were made for it. -/
theorem CleanDirs.run {c c' : Agenda Task Ext2State} (hdoes : Does (Task.step F fs fuel) c visits c')
    (h : CleanDirs c.2.kernel dirs added) (hw : ∀ t ∈ c.1, t.parent ∈ dirs) :
    ∃ dirs' added', CleanDirs c'.2.kernel dirs' added' ∧ dirs ⊆ dirs' ∧
      (∀ t ∈ c'.1, t.parent ∈ dirs') ∧
      ∀ d ∈ dirs, added' d = added d ++ childrenOf d (builtIn F visits) := by
  induction hdoes generalizing dirs added with
  | rest c => exact ⟨dirs, added, h, List.Subset.refl _, hw, fun d _ => (List.append_nil _).symm⟩
  | @task t s s₁ new rest visits c hstep _ ih =>
    obtain ⟨dirs₁, added₁, h₁, hsub₁, hnew, hadded₁⟩ := h.step (hw t (List.mem_cons_self ..)) hstep
    have hw₁ : ∀ x ∈ new ++ rest, x.parent ∈ dirs₁ := by
      intro x hx
      rcases List.mem_append.mp hx with hx | hx
      · exact hnew x hx
      · exact hsub₁ (hw x (List.mem_cons_of_mem _ hx))
    obtain ⟨dirs', added', h', hsub, hleft, hadded⟩ := ih h₁ hw₁
    refine ⟨dirs', added', h', fun x hx => hsub (hsub₁ hx), hleft, fun d hd => ?_⟩
    have hcons : builtIn F ((t, s) :: visits) =
        (builtAt F (t, s)).toList ++ builtIn F visits := by
      unfold builtIn
      rw [List.filterMap_cons]
      cases builtAt F (t, s) with
      | none => rfl
      | some b => rfl
    rw [hadded d (hsub₁ hd), hadded₁ d hd, hcons, childrenOf_append, List.append_assoc]

/-! ## The objects afterwards -/

/-- Headers and files change at blocks that are handed out only. -/
structure Keeps (s s' : Ext2State) : Prop where
  blocks : s'.kernel.blocks = s.kernel.blocks
  mallocs : s.kernel.mallocs ≤ s'.kernel.mallocs
  objects : ∀ p, (∀ i, s.kernel.mallocs ≤ i → i < s'.kernel.mallocs → p ≠ s.kernel.blocks i) →
    (s'.kernel.objects p).header = (s.kernel.objects p).header ∧ s'.files p = s.files p
  held : s'.held = s.held
  fileSystems : s'.fileSystems = s.fileSystems

theorem Keeps.refl (s : Ext2State) : Keeps s s := ⟨rfl, le_rfl, fun _ _ => ⟨rfl, rfl⟩, rfl, rfl⟩

theorem Keeps.skip (s : Ext2State) (n : ℕ) : Keeps s (s.skip n) :=
  ⟨rfl, Nat.le_add_right .., fun _ _ => ⟨rfl, rfl⟩, rfl, rfl⟩

theorem Keeps.trans {s'' : Ext2State} (h : Keeps s s') (h' : Keeps s' s'') : Keeps s s'' where
  blocks := h'.blocks.trans h.blocks
  mallocs := h.mallocs.trans h'.mallocs
  objects p hp := by
    have hmallocs := h.mallocs
    have hmallocs' := h'.mallocs
    obtain ⟨hheader, hfile⟩ := h.objects p fun i hi hi' => hp i hi (by omega)
    obtain ⟨hheader', hfile'⟩ := h'.objects p fun i hi hi' => h.blocks ▸ hp i (by omega) hi'
    exact ⟨hheader'.trans hheader, hfile'.trans hfile⟩
  held := h'.held.trans h.held
  fileSystems := h'.fileSystems.trans h.fileSystems

theorem Creates.keeps {object nodes : ℕ} (h : Creates s s' root object nodes) : Keeps s s' where
  blocks := h.blocks
  mallocs := by
    rw [h.mallocs]
    omega
  objects p hp := by
    have hne : p ≠ object := h.fresh ▸ hp _ le_rfl (by rw [h.mallocs]; omega)
    exact ⟨h.header p hne, h.files p hne⟩
  held := h.held
  fileSystems := h.fileSystems

theorem Task.step_keeps (h : Task.step F fs fuel s t = .ok (new, s')) : Keeps s s' := by
  rcases Task.step_cases h with ⟨-, -, n, rfl⟩ |
    ⟨f, i, count, limit, index, bytes, inode, name, dir, rfl, -, -, hadd, -⟩ |
    ⟨f, i, count, limit, index, bytes, inode, name, rfl, -, -, hadd, -⟩
  · exact .skip s n
  · exact (Keeps.skip s 2).trans (addDirectory_creates hadd).keeps
  · exact (Keeps.skip s 2).trans (addFile_creates hadd).keeps

theorem does_keeps {c c' : Agenda Task Ext2State} (h : Does (Task.step F fs fuel) c visits c') :
    Keeps c.2 c'.2 := by
  induction h with
  | rest c => exact .refl _
  | task hstep _ ih => exact (Task.step_keeps hstep).trans ih

/-- What became of an entry: an object whose name field has the name copied over what the block
held. -/
def Built.Made (fs : ℕ) (s s' : Ext2State) (b : Built) : Prop :=
  if b.isDirectory then
    ∃ name, readName b.entry = .ok name ∧ (s'.kernel.objects b.object).header =
      ⟨copyName (s.kernel.objects b.object).header.name name, 1⟩
  else
    ∃ name, readBytes b.entry 8 (field b.entry 6 1) = .ok name ∧
      (s'.kernel.objects b.object).header = copyHeader (s.kernel.objects b.object).header name ∧
      s'.files b.object = ⟨copyOverSize name (s.files b.object).size, fs⟩

/-- The object that a step makes. -/
theorem Task.step_made {b : Built} (h : Task.step F fs fuel s t = .ok (new, s'))
    (hbuilt : builtAt F (t, s) = some b) :
    b.Made fs s s' ∧ b.object = s.kernel.blocks (s.kernel.mallocs + 2) ∧
      s.kernel.mallocs + 2 < s'.kernel.mallocs ∧ b.root = t.parent := by
  rcases Task.step_cases h with ⟨hnone, -⟩ |
    ⟨f, i, count, limit, index, bytes, inode, name, dir, rfl, hlt, hkind, hadd, -⟩ |
    ⟨f, i, count, limit, index, bytes, inode, name, rfl, hlt, hkind, hadd, -⟩
  · exact absurd (hnone.symm.trans hbuilt) (by simp)
  · have hcreates := addDirectory_creates hadd
    -- `CreateDirectory` adds the new directory to the root, and the import adds it to its parent
    obtain ⟨hdir, -, k, hfirst, hsecond⟩ := addDirectory_spec hadd
    simp only [builtAt, hkind, if_pos hlt] at hbuilt
    obtain rfl := Option.some.inj hbuilt
    obtain ⟨-, -, -, -, hname, -⟩ := (kindOf_spec hkind).2
    refine ⟨?_, rfl, ?_, rfl⟩
    · rw [Built.Made, if_pos rfl]
      refine ⟨name, hname, ?_⟩
      dsimp only
      rw [(directoryAddChild_rest hsecond).2.2.2, (directoryAddChild_rest hfirst).2.2.2, hdir]
      exact congrArg Directory.header plant_self
    · have hmallocs : s'.kernel.mallocs = s.kernel.mallocs + 2 + 1 + 2 := hcreates.mallocs
      omega
  · have hcreates := addFile_creates hadd
    obtain ⟨-, hadd, hs'⟩ := addFile_spec hadd
    simp only [builtAt, hkind, if_pos hlt] at hbuilt
    obtain rfl := Option.some.inj hbuilt
    obtain ⟨-, -, -, -, hname, -⟩ := (kindOf_spec hkind).2
    refine ⟨?_, rfl, ?_, rfl⟩
    · rw [Built.Made, if_neg Bool.false_ne_true]
      refine ⟨name, hname, ?_, ?_⟩
      · dsimp only
        rw [(directoryAddChild_rest hadd).2.2.2]
        exact congrArg Directory.header plant_self
      · rw [hs']
        exact Function.update_self ..
    · have hmallocs : s'.kernel.mallocs = s.kernel.mallocs + 2 + 1 + 1 := hcreates.mallocs
      omega

/-- **The objects of a run** are as they were made, on what their blocks held before the run. -/
theorem builtIn_made {c c' : Agenda Task Ext2State} (hb : Blocks c.2.kernel)
    (h : Does (Task.step F fs fuel) c visits c') {b : Built} (hbuilt : b ∈ builtIn F visits) :
    b.Made fs c.2 c'.2 ∧ ∃ i, c.2.kernel.mallocs ≤ i ∧ i < c'.2.kernel.mallocs ∧
      b.object = c.2.kernel.blocks i := by
  obtain ⟨p, hp, hat⟩ := List.mem_filterMap.mp hbuilt
  obtain ⟨u, x, rest, new, s₁, hbefore, hstep, hafter⟩ := h.of_mem hp
  have hkeeps := does_keeps hbefore
  have hkeeps' := does_keeps hafter
  have hb' : Blocks p.2.kernel :=
    ⟨hkeeps.blocks ▸ hb.nonnull, hkeeps.blocks ▸ hb.injective⟩
  obtain ⟨hmade, hobject, hlt, -⟩ := Task.step_made hstep hat
  have hblocks₁ := (Task.step_keeps hstep).blocks
  -- the block was not handed out before the step, and is not handed out again behind it
  have hold := hkeeps.objects b.object fun i hi hi' heq => by
    rw [hobject, hkeeps.blocks] at heq
    have := hb.injective heq
    dsimp only at hi'
    omega
  have hnew := hkeeps'.objects b.object fun i hi hi' heq => by
    rw [hobject, hblocks₁] at heq
    have := hb'.injective heq
    dsimp only at hi
    omega
  refine ⟨?_, p.2.kernel.mallocs + 2, ?_, ?_, ?_⟩
  · unfold Built.Made at hmade ⊢
    rw [hnew.1, hnew.2]
    dsimp only at hold
    rw [hold.1, hold.2] at hmade
    exact hmade
  · exact hkeeps.mallocs.trans (Nat.le_add_right ..)
  · exact hlt.trans_le hkeeps'.mallocs
  · rw [hobject]
    exact congrFun hkeeps.blocks _

end Cutesugar.Kernel.Fs
