import Cutesugar.Kernel.Fs.Ext2Image
import Cutesugar.Kernel.Fs.Ext2Termination
import Mathlib.Algebra.Order.BigOperators.Group.List

/-!
# The children of a directory

Which entries an import comes to is computed sector by sector, from the sizes of the entries and,
behind the sector, from what the buffer held. The children of the directory are the objects made of
these entries.

- `directoryMet`: the entries with names of their own that the import of a directory comes to if
  none of them is a directory.
- `OneToOne`: the import of a directory as it should be.
- `import_one_to_one_iff`: directories that are imported one-to-one.
-/

namespace Cutesugar.Kernel.Fs

open Lib

variable (F : FileSystem)

/-! ## What the loops come to -/

/-- An entry that the import comes to: its place in the block, the bytes from it to the end of the
buffer, and the number of the block that its object is made of. -/
structure Met where
  block : ℕ
  offset : ℕ
  entry : List UInt8
  object : ℕ

def Met.place (p : Met) : Place := ⟨p.block, p.offset, field p.entry 0 4⟩

/-- The entry at `bytes` if it has a name of its own, with `m` the number of the next block. -/
def metAt (i count m : ℕ) (bytes : List UInt8) : List Met :=
  if isDots bytes = .ok true ∨ field bytes 8 1 = 0 then []
  else [⟨i, offsetOf F count bytes, bytes, m + 2⟩]

/-- The entries from `bytes` on in a buffer. The loop ends when no more than the 1536 bytes behind
the sector are left. -/
def entriesMet (i count : ℕ) : ℕ → ℕ → List UInt8 → Option (List Met)
  | 0, _, bytes => if bytes.length ≤ 1536 then some [] else none
  | n + 1, m, bytes =>
    if bytes.length ≤ 1536 then some []
    else if field bytes 4 2 = 0 ∧ isDots bytes ≠ .ok true then some (metAt F i count m bytes)
    else (entriesMet i count n (m + 4 * (metAt F i count m bytes).length)
      (bytes.drop (field bytes 4 2))).map (metAt F i count m bytes ++ ·)

/-- What is come to in a list of things, with the number of the next block behind them. -/
def inTurn {α : Type} (f : ℕ → α → Option (List Met × ℕ)) : ℕ → List α → Option (List Met × ℕ)
  | m, [] => some ([], m)
  | m, x :: xs => do
    let here ← f m x
    let behind ← inTurn f here.2 xs
    some (here.1 ++ behind.1, behind.2)

/-- The entries of a sector. -/
def sectorMet (held : ℕ → ℕ → UInt8) (i pointer m count : ℕ) : Option (List Met × ℕ) := do
  let location ← (sectorOf F pointer count).toOption
  let met ← entriesMet F i count 512 (m + 1) (sectorBuffer F (held m) location)
  some (met, m + 1 + 4 * met.length)

/-- The entries of a block. -/
def blockMet (held : ℕ → ℕ → UInt8) (inode : List UInt8) (m i : ℕ) : Option (List Met × ℕ) :=
  if directBlock inode i = 0 then some ([], m)
  else inTurn (sectorMet F held i (directBlock inode i)) m
    (List.range (blockSize F / F.blockDevice.blockSize))

/-- **The entries that the import of a directory comes to**. -/
def directoryMet (held : ℕ → ℕ → UInt8) (inode : List UInt8) (m : ℕ) : Option (List Met × ℕ) :=
  inTurn (blockMet F held inode) m (List.range 12)

/-! ## One-to-one -/

def Built.place (b : Built) : Place := ⟨b.block, b.offset, field b.entry 0 4⟩

/-- The children that a directory has been given, each with the place of the entry that it was made
of. -/
def sources (d : ℕ) (bs : List Built) : List (ℕ × Place) :=
  (bs.filter fun b => b.root = d).flatMap fun b => b.children.map fun o => (o, b.place)

/-- **One-to-one**: the import returns, and the new children of the directory are objects made of
its live entries, one of each. -/
def OneToOne (fs : ℕ) (s : Ext2State) (root index : ℕ) (old : List ℕ) : Prop :=
  ∃ n, ∀ fuel rounds depth, n ≤ fuel → n ≤ rounds → n ≤ depth → ∃ s' visits,
    createDirectoryEntry F fs fuel rounds depth s root index = .ok s' ∧
    Does (Task.step F fs fuel) ([.enter [] root index], s) visits ([], s') ∧
    DirsExact s'.kernel [root] (fun _ =>
      old ++ (sources root (builtIn F visits)).map Prod.fst) ∧
    ((sources root (builtIn F visits)).map Prod.snd).Perm (liveEntries F (diskInode F index))

/-- The entry is a file. -/
def FileEntry (entry : List UInt8) : Prop :=
  ∃ inode name, kindOf F entry = .ok (.file inode name)

/-- The object that is made of an entry. -/
def Met.built (root : ℕ) (blocks : ℕ → ℕ) (p : Met) : Built :=
  ⟨root, blocks p.object, p.block, p.offset, p.entry, false⟩

/-- The loop over the entries of a sector has come to `bytes`. -/
def Aligned (count : ℕ) (limit index : ℤ) (bytes : List UInt8) : Prop :=
  F.blockDevice.blockSize = 512 ∧ count < 128 ∧ limit = (count + 1) * 512 ∧
    ∃ o : ℕ, o < 2 ^ 17 ∧ index = count * 512 + o ∧ bytes.length = 2048 - o

variable {F} {fs fuel i count pointer n m m' root : ℕ} {limit index : ℤ} {bytes : List UInt8}
  {s s' : Ext2State} {f : Frame} {met : List Met} {v : List (Task × Ext2State)}
  {held : ℕ → ℕ → UInt8} {new w : List Task}

/-! ## The loop over the entries of a sector -/

theorem toInt_of_small {x : ℤ} (hlow : 0 ≤ x) (hhigh : x < 2 ^ 31) : toInt x = x := by
  unfold toInt
  apply Int.bmod_eq_of_le
  · omega
  · omega

theorem Aligned.lt_iff (h : Aligned F count limit index bytes) :
    index < limit ↔ 1536 < bytes.length := by
  obtain ⟨-, -, rfl, o, -, rfl, hlen⟩ := h
  omega

theorem Aligned.behind (h : Aligned F count limit index bytes) (hlt : index < limit) (size : ℕ)
    (hsize : size < 2 ^ 16) : Aligned F count limit (toInt (index + size)) (bytes.drop size) := by
  have hmore := h.lt_iff.mp hlt
  obtain ⟨hdevice, hcount, rfl, o, -, rfl, hlen⟩ := h
  refine ⟨hdevice, hcount, rfl, o + size, by omega, ?_, ?_⟩
  · rw [toInt_of_small (by omega) (by omega)]
    push_cast
    ring
  · rw [List.length_drop]
    omega

theorem Aligned.start (hdevice : F.blockDevice.blockSize = 512) (hcount : count < 128)
    (location : ℕ) (old : ℕ → UInt8) :
    Aligned F count (toInt ((count + 1) * F.blockDevice.blockSize))
      (toInt (count * F.blockDevice.blockSize)) (sectorBuffer F old location) := by
  rw [hdevice]
  refine ⟨hdevice, hcount, ?_, 0, by decide, ?_, ?_⟩
  · exact toInt_of_small (by omega) (by omega)
  · rw [toInt_of_small (by omega) (by omega)]
    push_cast
    ring
  · simp [sectorBuffer]

/-- Every entry but one of the dots without a size leads on, so as many rounds as there are bytes
of the sector are enough. -/
theorem entriesMet_bound (h : entriesMet F i count n m bytes = some met) {k : ℕ}
    (hk : bytes.length ≤ 1536 + k) : entriesMet F i count k m bytes = some met := by
  induction n generalizing m bytes met k with
  | zero =>
    unfold entriesMet at h
    split_ifs at h with hend
    cases k with
    | zero => exact (if_pos hend).trans h
    | succ k => exact (if_pos hend).trans h
  | succ n ih =>
    unfold entriesMet at h
    split_ifs at h with hend hsize
    · cases k with
      | zero => exact (if_pos hend).trans h
      | succ k => exact (if_pos hend).trans h
    · cases k with
      | zero => exact absurd hk (by omega)
      | succ k =>
        rw [entriesMet, if_neg hend, if_pos hsize]
        exact h
    · obtain ⟨behind, hbehind, rfl⟩ := Option.map_eq_some_iff.mp h
      rcases Nat.eq_zero_or_pos (field bytes 4 2) with hzero | hpos
      · -- one of the dots, which does not lead on
        have hdots : isDots bytes = .ok true := not_not.mp fun hne => hsize ⟨hzero, hne⟩
        have hnone : metAt F i count m bytes = [] := if_pos (.inl hdots)
        rw [hzero, hnone, List.drop_zero] at hbehind
        rw [hnone]
        exact ih hbehind hk
      · cases k with
        | zero => exact absurd hk (by omega)
        | succ k =>
          rw [entriesMet, if_neg hend, if_neg hsize,
            ih hbehind (by rw [List.length_drop]; omega)]
          rfl

/-! ## From a run to the entries -/

/-- The entry behind, if the loop goes on. -/
def entryBehind (f : Frame) (i count : ℕ) (limit index : ℤ) (bytes : List UInt8) : List Task :=
  if field bytes 4 2 = 0 ∧ isDots bytes ≠ .ok true then []
  else [.entry f i count limit (toInt (index + field bytes 4 2)) (bytes.drop (field bytes 4 2))]

theorem more_eq_entryBehind (hdots : isDots bytes ≠ .ok true) :
    Task.more f i count limit index bytes (field bytes 4 2) =
      entryBehind f i count limit index bytes := by
  unfold Task.more entryBehind
  by_cases hsize : field bytes 4 2 = 0
  · rw [if_pos hsize, if_pos ⟨hsize, hdots⟩]
  · rw [if_neg hsize, if_neg fun h => hsize h.1]

/-- **A step at an entry** that does not make a directory. -/
theorem entry_step (hlt : index < limit)
    (hstep : Task.step F fs fuel s (.entry f i count limit index bytes) = .ok (new, s'))
    (hfile : ∀ b ∈ builtAt F (.entry f i count limit index bytes, s), b.isDirectory = false) :
    new = entryBehind f i count limit index bytes ∧
      (builtAt F (.entry f i count limit index bytes, s)).toList =
        (metAt F i count s.kernel.mallocs bytes).map (Met.built f.root s.kernel.blocks) ∧
      s'.kernel.mallocs =
        s.kernel.mallocs + 4 * (metAt F i count s.kernel.mallocs bytes).length ∧
      ∀ p ∈ metAt F i count s.kernel.mallocs bytes, FileEntry F p.entry := by
  rw [Task.step, if_pos hlt] at hstep
  obtain ⟨kind, hkind, hstep⟩ := Libc.bind_eq_ok.mp hstep
  obtain ⟨size, hsize, hstep⟩ := Libc.bind_eq_ok.mp hstep
  obtain ⟨-, rfl⟩ := readField_eq_ok.mp hsize
  obtain ⟨-, hspec⟩ := kindOf_spec hkind
  cases kind with
  | blank =>
    obtain ⟨hdots, hzero⟩ := hspec
    obtain ⟨rfl, rfl⟩ := Prod.mk.inj (Except.ok.inj hstep)
    have hnone : metAt F i count s.kernel.mallocs bytes = [] := if_pos (.inr hzero)
    refine ⟨more_eq_entryBehind (by simp [hdots]), ?_, ?_, ?_⟩
    · simp [builtAt, hkind, hlt, hnone]
    · simp [hnone]
    · simp [hnone]
  | dots =>
    have hdots : isDots bytes = .ok true := hspec
    obtain ⟨rfl, rfl⟩ := Prod.mk.inj (Except.ok.inj hstep)
    have hnone : metAt F i count s.kernel.mallocs bytes = [] := if_pos (.inl hdots)
    refine ⟨(if_neg fun h => h.2 hdots).symm, ?_, ?_, ?_⟩
    · simp [builtAt, hkind, hlt, hnone]
    · simp [hnone]
    · simp [hnone]
  | directory inode name =>
    -- excluded: a directory would be made
    have hbuilt := hfile ⟨f.root, s.kernel.blocks (s.kernel.mallocs + 2), i,
      offsetOf F count bytes, bytes, true⟩ (by simp [builtAt, hkind, hlt])
    exact absurd hbuilt (by simp)
  | file inode name =>
    obtain ⟨hdots, hname, -⟩ := hspec
    obtain ⟨s₁, hadd, hstep⟩ := Libc.bind_eq_ok.mp hstep
    obtain ⟨rfl, rfl⟩ := Prod.mk.inj (Except.ok.inj hstep)
    -- the object is the third block: `ReadInode` takes two before it
    have hone : metAt F i count s.kernel.mallocs bytes =
        [⟨i, offsetOf F count bytes, bytes, s.kernel.mallocs + 2⟩] := by
      apply if_neg
      simp [hdots, hname]
    have hmallocs := (addFile_creates hadd).mallocs
    refine ⟨more_eq_entryBehind (by simp [hdots]), ?_, ?_, ?_⟩
    · simp [builtAt, hkind, hlt, hone, Met.built]
    · rw [hmallocs, hone]
      rfl
    · rw [hone]
      intro p hp
      rw [List.mem_singleton.mp hp]
      exact ⟨inode, name, hkind⟩

theorem builtIn_append (u v : List (Task × Ext2State)) :
    builtIn F (u ++ v) = builtIn F u ++ builtIn F v := List.filterMap_append

theorem builtIn_cons (p : Task × Ext2State) (v : List (Task × Ext2State)) :
    builtIn F (p :: v) = (builtAt F p).toList ++ builtIn F v := by
  unfold builtIn
  rw [List.filterMap_cons]
  cases builtAt F p with
  | none => rfl
  | some b => rfl

/-- A run without directories has come to the entries that are computed. -/
theorem entry_explained
    (hv : Does (Task.step F fs fuel) ([.entry f i count limit index bytes], s) v ([], s'))
    (hal : Aligned F count limit index bytes)
    (hflat : ∀ b ∈ builtIn F v, b.isDirectory = false) :
    ∃ n met, entriesMet F i count n s.kernel.mallocs bytes = some met ∧
      s'.kernel.mallocs = s.kernel.mallocs + 4 * met.length ∧
      builtIn F v = met.map (Met.built f.root s.kernel.blocks) ∧
      ∀ p ∈ met, FileEntry F p.entry := by
  induction v generalizing s index bytes with
  | nil => exact absurd (congrArg Prod.fst hv.eq_of_nil) (by simp)
  | cons p v ih =>
    cases hv with
    | @task _ _ s₁ new _ _ _ hstep hgo =>
      rw [builtIn_cons] at hflat
      rw [List.append_nil] at hgo
      by_cases hlt : index < limit
      · obtain ⟨rfl, hbuilt, hmallocs, hfiles⟩ := entry_step hlt hstep
          fun b hb => hflat b (List.mem_append_left _ (Option.mem_toList.mpr hb))
        have hkeeps := Task.step_keeps hstep
        have hmore := hal.lt_iff.mp hlt
        unfold entryBehind at hgo
        split_ifs at hgo with hsize
        · -- the loop is left
          obtain ⟨rfl, hend⟩ := hgo.of_nil
          obtain rfl : s' = s₁ := congrArg Prod.snd hend
          refine ⟨1, metAt F i count s.kernel.mallocs bytes, ?_, hmallocs, ?_, hfiles⟩
          · rw [entriesMet, if_neg (by omega), if_pos hsize]
          · rw [builtIn_cons, hbuilt]
            exact List.append_nil _
        · obtain ⟨n, met, hmet, hmallocs', hbuilt', hfiles'⟩ := ih hgo
            (hal.behind hlt _ (field_lt ..))
            fun b hb => hflat b (List.mem_append_right _ hb)
          refine ⟨n + 1, metAt F i count s.kernel.mallocs bytes ++ met, ?_, ?_, ?_, ?_⟩
          · rw [entriesMet, if_neg (by omega), if_neg hsize, ← hmallocs, hmet]
            rfl
          · rw [List.length_append, hmallocs', hmallocs]
            omega
          · rw [builtIn_cons, hbuilt, hbuilt', hkeeps.blocks, List.map_append]
          · exact List.forall_mem_append.mpr ⟨hfiles, hfiles'⟩
      · rw [Task.step, if_neg hlt] at hstep
        obtain ⟨rfl, rfl⟩ := Prod.mk.inj (Except.ok.inj hstep)
        obtain ⟨rfl, hend⟩ := hgo.of_nil
        obtain rfl : s' = s := congrArg Prod.snd hend
        have hshort : bytes.length ≤ 1536 := by
          have := hal.lt_iff.not.mp hlt
          omega
        refine ⟨0, [], if_pos hshort, rfl, ?_, by simp⟩
        simp [builtIn, builtAt, hlt]

/-- Every run of tasks without directories has come to what is computed. -/
def Explains (F : FileSystem) (fs fuel root : ℕ) (held : ℕ → ℕ → UInt8) (blocks : ℕ → ℕ)
    (g : ℕ → Option (List Met × ℕ)) (w : List Task) : Prop :=
  ∀ s v s', s.held = held → s.kernel.blocks = blocks →
    Does (Task.step F fs fuel) (w, s) v ([], s') →
    (∀ b ∈ builtIn F v, b.isDirectory = false) →
    ∃ met, g s.kernel.mallocs = some (met, s'.kernel.mallocs) ∧
      builtIn F v = met.map (Met.built root blocks) ∧ ∀ p ∈ met, FileEntry F p.entry

variable {α : Type} {g : ℕ → α → Option (List Met × ℕ)} {task : α → Task} {xs : List α}
  {blocks : ℕ → ℕ}

theorem explains_inTurn
    (h : ∀ x ∈ xs, Explains F fs fuel root held blocks (fun m => g m x) [task x]) :
    Explains F fs fuel root held blocks (fun m => inTurn g m xs) (xs.map task) := by
  induction xs with
  | nil =>
    intro s v s' _ _ hv _
    obtain ⟨rfl, hend⟩ := hv.of_nil
    obtain rfl : s' = s := congrArg Prod.snd hend
    exact ⟨[], rfl, rfl, by simp⟩
  | cons x xs ih =>
    intro s v s' hheld hblocks hv hflat
    obtain ⟨v₁, s₁, v₂, hfirst, hthen, rfl⟩ :=
      Does.append_inv (a := [task x]) (b := xs.map task) hv
    rw [builtIn_append] at hflat
    obtain ⟨hflat₁, hflat₂⟩ := List.forall_mem_append.mp hflat
    have hkeeps := does_keeps hfirst
    obtain ⟨met₁, hg₁, hbuilt₁, hfiles₁⟩ := h x (List.mem_cons_self ..) s v₁ s₁ hheld hblocks
      hfirst hflat₁
    obtain ⟨met₂, hg₂, hbuilt₂, hfiles₂⟩ := ih (fun y hy => h y (List.mem_cons_of_mem _ hy)) s₁ v₂
      s' (hkeeps.held.trans hheld) (hkeeps.blocks.trans hblocks) hthen hflat₂
    refine ⟨met₁ ++ met₂, ?_, ?_, List.forall_mem_append.mpr ⟨hfiles₁, hfiles₂⟩⟩
    · simp only [inTurn, hg₁, hg₂, Option.bind_eq_bind, Option.bind_some]
    · rw [builtIn_append, hbuilt₁, hbuilt₂, List.map_append]

theorem explains_sector (hdevice : F.blockDevice.blockSize = 512) (hcount : count < 128) :
    Explains F fs fuel f.root held blocks (fun m => sectorMet F held i pointer m count)
      [.sector f i pointer count] := by
  intro s v s' hheld hblocks hv hflat
  cases hv with
  | @task _ _ s₁ new _ v _ hstep hgo =>
    obtain ⟨location, hlocation, hstep⟩ := Libc.bind_eq_ok.mp hstep
    obtain ⟨rfl, rfl⟩ := Prod.mk.inj (Except.ok.inj hstep)
    have hnone : builtIn F ((.sector f i pointer count, s) :: v) = builtIn F v := by
      rw [builtIn_cons]
      rfl
    rw [hnone] at hflat
    obtain ⟨n, met, hmet, hmallocs, hbuilt, hfiles⟩ := entry_explained hgo
      (.start hdevice hcount location _) hflat
    have hlen : (sectorBuffer F (s.held s.kernel.mallocs) location).length = 2048 := by
      simp [sectorBuffer]
    have hbound := entriesMet_bound (k := 512) hmet (by rw [hlen])
    refine ⟨met, ?_, ?_, hfiles⟩
    · have hbound' : entriesMet F i count 512 (s.kernel.mallocs + 1)
          (sectorBuffer F (held s.kernel.mallocs) location) = some met := hheld ▸ hbound
      have hmallocs' : s'.kernel.mallocs = s.kernel.mallocs + 1 + 4 * met.length := hmallocs
      simp only [sectorMet, hlocation, Except.toOption, Option.bind_eq_bind, Option.bind_some,
        hbound', hmallocs']
    · rw [hnone, hbuilt]
      exact congrArg (fun b => met.map (Met.built f.root b)) hblocks

theorem explains_block {inode : List UInt8} (hdevice : F.blockDevice.blockSize = 512)
    (hsectors : blockSize F / 512 ≤ 128) :
    Explains F fs fuel f.root held blocks (fun m => blockMet F held inode m i)
      [.block f inode i] := by
  intro s v s' hheld hblocks hv hflat
  cases hv with
  | @task _ _ s₁ new _ v _ hstep hgo =>
    have hnone : builtIn F ((.block f inode i, s) :: v) = builtIn F v := by
      rw [builtIn_cons]
      rfl
    rw [hnone] at hflat ⊢
    obtain ⟨pointer, hpointer, hstep⟩ := Libc.bind_eq_ok.mp hstep
    obtain ⟨-, rfl⟩ := readField_eq_ok.mp hpointer
    rw [List.append_nil] at hgo
    split_ifs at hstep with hzero
    · -- a hole
      obtain ⟨rfl, rfl⟩ := Prod.mk.inj (Except.ok.inj hstep)
      obtain ⟨rfl, hend⟩ := hgo.of_nil
      obtain rfl : s' = s := congrArg Prod.snd hend
      exact ⟨[], if_pos hzero, rfl, by simp⟩
    · obtain ⟨sectors, hdivide, hstep⟩ := Libc.bind_eq_ok.mp hstep
      obtain ⟨-, rfl⟩ := divide_eq_ok.mp hdivide
      obtain ⟨rfl, rfl⟩ := Prod.mk.inj (Except.ok.inj hstep)
      rw [hdevice] at hgo
      have hrun : Explains F fs fuel f.root held blocks
          (fun m => inTurn (sectorMet F held i (directBlock inode i)) m
            (List.range (blockSize F / 512)))
          ((List.range (blockSize F / 512)).map (Task.sector f i (directBlock inode i))) :=
        explains_inTurn fun count hcount => explains_sector hdevice
          ((List.mem_range.mp hcount).trans_le hsectors)
      obtain ⟨met, hmet, hbuilt, hfiles⟩ := hrun s v s' hheld hblocks hgo hflat
      refine ⟨met, ?_, hbuilt, hfiles⟩
      have hne : directBlock inode i ≠ 0 := hzero
      simp only [blockMet, hne, if_false, hdevice]
      exact hmet

/-! ## The list of the directory -/

/-- The header list of a directory has `n` entries. -/
def Ends (k : State) (d n : ℕ) : Prop :=
  ∃ entries, Chain k.nextEntry (k.objects d).headerList entries 0 ∧ (∀ t ∈ entries, t ≠ 0) ∧
    entries.length = n

variable {k k₀ k' : State} {d o : ℕ} {added : List ℕ} {name : List UInt8} {inode : ℕ}

theorem Ends.unique {n' : ℕ} (h : Ends k d n) (h' : Ends k d n') : n = n' := by
  obtain ⟨xs, hxs, hnonnull, rfl⟩ := h
  obtain ⟨ys, hys, hnonnull', rfl⟩ := h'
  -- behind the null pointer there are no more entries
  have hend {xs ys : List ℕ} (hxs : Chain k.nextEntry (k.objects d).headerList xs 0)
      (hys : Chain k.nextEntry (k.objects d).headerList ys 0) (hnonnull : ∀ t ∈ ys, t ≠ 0)
      (hle : xs.length ≤ ys.length) : xs.length = ys.length := by
    obtain ⟨zs, rfl, hzs⟩ := hxs.extends hys hle
    cases zs with
    | nil => rw [List.append_nil]
    | cons z zs =>
      exact absurd hzs.1.symm (hnonnull z (List.mem_append_right _ (List.mem_cons_self ..)))
  rcases Nat.le_total xs.length ys.length with hle | hle
  · exact hend hxs hys hnonnull' hle
  · exact (hend hys hxs hnonnull hle).symm

/-- A directory whose list ends has had a shorter list before a child was added. -/
theorem directoryAddChild_grows (hb : Blocks k) (h : directoryAddChild fuel k d o = some k')
    (hend : Ends k' d n) :
    ∃ n', Ends k d n' ∧ n' < n ∧ (n = n' + 1 → k.nextEntry (k.blocks k.mallocs) = 0) := by
  obtain ⟨ys, hys, hnonnull, rfl⟩ := hend
  obtain ⟨xs, hxs, hnonnull', hlt, hlink⟩ := appendNode_grows (hb.nonnull _)
    (directoryAddChild_spec h).append hys hnonnull
  exact ⟨xs.length, ⟨xs, hxs, hnonnull', rfl⟩, hlt, hlink⟩

theorem addFile_grows (hb : Blocks s.kernel) (hroot : root ≠ s.kernel.blocks s.kernel.mallocs)
    (hadd : addFile fuel fs s root inode name = .ok s') (hend : Ends s'.kernel root n) :
    ∃ n', Ends s.kernel root n' ∧ n' < n ∧
      (n = n' + 1 → s.kernel.nextEntry (s.kernel.blocks (s.kernel.mallocs + 1)) = 0) := by
  obtain ⟨-, hadd, -⟩ := addFile_spec hadd
  let header := copyHeader (s.kernel.objects (s.kernel.blocks s.kernel.mallocs)).header name
  have hb' : Blocks (plant s.kernel ⟨header, inode⟩) :=
    ⟨hb.nonnull, hb.injective⟩
  obtain ⟨n', ⟨xs, hxs, hnonnull, hlen⟩, hlt, hlink⟩ := directoryAddChild_grows hb' hadd hend
  -- the new object is not the directory
  refine ⟨n', ⟨xs, ?_, hnonnull, hlen⟩, hlt, hlink⟩
  have hobject : (plant s.kernel ⟨header, inode⟩).objects root = s.kernel.objects root :=
    Function.update_of_ne hroot ..
  rw [hobject] at hxs
  exact hxs

/-- No directory is made of the entries of this directory, so nothing else is imported. -/
theorem flat_of_root {c c' : Agenda Task Ext2State}
    (hdoes : Does (Task.step F fs fuel) c v c') (hw : ∀ t ∈ c.1, t.parent = root)
    (h : ∀ b ∈ builtIn F v, b.root = root → b.isDirectory = false) :
    (∀ p ∈ v, p.1.parent = root) ∧ ∀ b ∈ builtIn F v, b.isDirectory = false := by
  induction hdoes with
  | rest c => simp [builtIn]
  | @task t s s₁ new rest visits c hstep hgo ih =>
    rw [builtIn_cons] at h ⊢
    obtain ⟨hhere, hbehind⟩ := List.forall_mem_append.mp h
    have hparent : t.parent = root := hw t (List.mem_cons_self ..)
    have hrest : ∀ x ∈ rest, x.parent = root := fun x hx => hw x (List.mem_cons_of_mem _ hx)
    have hnew : (∀ x ∈ new, x.parent = root) ∧
        ∀ b ∈ (builtAt F (t, s)).toList, b.isDirectory = false := by
      refine ⟨?_, fun b hb => hhere b hb ?_⟩
      · rcases Task.step_cases hstep with ⟨-, hnew, -⟩ |
          ⟨f, i, count, limit, index, bytes, inode, name, dir, rfl, hlt, hkind, -, -⟩ |
          ⟨f, i, count, limit, index, bytes, inode, name, rfl, -, -, -, rfl⟩
        · exact fun x hx => (hnew x hx).trans hparent
        · have hdir := hhere ⟨f.root, s.kernel.blocks (s.kernel.mallocs + 2), i,
            offsetOf F count bytes, bytes, true⟩ (by simp [builtAt, hkind, hlt]) hparent
          exact absurd hdir (by simp)
        · exact fun x hx => (more_parent hx).trans hparent
      · exact (Task.step_made hstep (Option.mem_toList.mp hb)).2.2.2.trans hparent
    obtain ⟨hparents, hflat⟩ := ih (List.forall_mem_append.mpr ⟨hnew.1, hrest⟩) hbehind
    exact ⟨List.forall_mem_cons.mpr ⟨hparent, hparents⟩,
      List.forall_mem_append.mpr ⟨hnew.2, hflat⟩⟩

/-- The blocks behind are as they were, and the directory has been given `added`. -/
structure Tidy (k₀ k : State) (root : ℕ) (added : List ℕ) : Prop where
  blocks : k.blocks = k₀.blocks
  mallocs : k₀.mallocs ≤ k.mallocs
  links : ∀ i, k.mallocs ≤ i → k.nextEntry (k₀.blocks i) = k₀.nextEntry (k₀.blocks i)
  built : ∃ entries, DirsBuilt k [root] (fun _ => added) entries

theorem Tidy.skip (h : Tidy k₀ k root added) (n : ℕ) :
    Tidy k₀ { k with mallocs := k.mallocs + n } root added where
  blocks := h.blocks
  mallocs := h.mallocs.trans (Nat.le_add_right ..)
  links i hi := h.links i ((Nat.le_add_right ..).trans hi)
  built := by
    obtain ⟨entries, hbuilt⟩ := h.built
    exact ⟨entries, hbuilt.mono (fun _ _ => rfl) rfl rfl (Nat.le_add_right ..)⟩

theorem Tidy.root_ne (h : Tidy k₀ k root added) {i : ℕ} (hi : k.mallocs ≤ i) :
    root ≠ k.blocks i := by
  obtain ⟨_, hbuilt⟩ := h.built
  exact hbuilt.fresh root (List.mem_singleton_self _) i hi

/-- A file on a block with a null link. -/
theorem Tidy.addFile (h : Tidy k₀ s.kernel root added) (hb : Blocks k₀)
    (hadd : addFile fuel fs s root inode name = .ok s')
    (hclean : k₀.nextEntry (k₀.blocks (s.kernel.mallocs + 1)) = 0) :
    Tidy k₀ s'.kernel root (added ++ [k₀.blocks s.kernel.mallocs]) := by
  have hcreates := addFile_creates hadd
  obtain ⟨-, hadd, -⟩ := addFile_spec hadd
  obtain ⟨entries, hbuilt⟩ := h.built
  let header := copyHeader (s.kernel.objects (s.kernel.blocks s.kernel.mallocs)).header name
  have hb' : Blocks (plant s.kernel ⟨header, inode⟩) :=
    ⟨fun i => h.blocks ▸ hb.nonnull i, h.blocks ▸ hb.injective⟩
  have hplant : DirsBuilt (plant s.kernel ⟨header, inode⟩) [root] (fun _ => added) entries := by
    refine hbuilt.mono (fun d hd => ?_) rfl rfl (Nat.le_succ _)
    rw [List.mem_singleton.mp hd]
    exact congrArg _ (Function.update_of_ne (h.root_ne le_rfl) ..)
  have hspec := directoryAddChild_spec hadd
  have hnode : (plant s.kernel ⟨header, inode⟩).nextEntry
      (s.kernel.blocks (s.kernel.mallocs + 1)) = 0 := by
    have hlink := h.links (s.kernel.mallocs + 1) (Nat.le_succ _)
    rw [← h.blocks] at hlink hclean
    exact hlink.trans hclean
  have hadded := hplant.addChild hb' (List.mem_singleton_self _) hspec hnode
  have hframe := (appendNode_spec (hplant.chain root (List.mem_singleton_self _))
    (hplant.nodup root (List.mem_singleton_self _))
    (fun t ht => (hplant.taken root (List.mem_singleton_self _) t ht).nonnull hb')
    (fun hmem => (hplant.taken root (List.mem_singleton_self _) _ hmem).ne_block hb' le_rfl rfl)
    hspec.append).2
  refine ⟨hcreates.blocks.trans h.blocks, ?_, fun i hi => ?_, _, ⟨hadded.chain, fun d hd => ?_,
    hadded.taken, hadded.nodup, hadded.apart, hadded.fresh⟩⟩
  · have := h.mallocs
    rw [hcreates.mallocs]
    omega
  · -- a block that was not handed out is no entry
    rw [hcreates.mallocs] at hi
    have hne : k₀.blocks i ∉ entries root := by
      intro hmem
      refine (hplant.taken root (List.mem_singleton_self _) _ hmem).ne_block hb' (i := i) ?_ ?_
      · exact show s.kernel.mallocs + 1 ≤ i by omega
      · exact congrFun h.blocks.symm i
    exact (hframe _ hne).trans (h.links i (by omega))
  · rw [hadded.items d hd, List.mem_singleton.mp hd, Function.update_self, h.blocks]

/-- A run that ends with a list that ends has made it longer by at least the number of objects. -/
theorem ends_run {c c' : Agenda Task Ext2State} (hdoes : Does (Task.step F fs fuel) c v c')
    (hb : Blocks c.2.kernel) (hroots : ∀ p ∈ v, p.1.parent = root)
    (hflat : ∀ b ∈ builtIn F v, b.isDirectory = false)
    (hfresh : ∀ i, c.2.kernel.mallocs ≤ i → root ≠ c.2.kernel.blocks i)
    (hend : Ends c'.2.kernel root n) :
    ∃ n', Ends c.2.kernel root n' ∧ n' + (builtIn F v).length ≤ n := by
  induction hdoes with
  | rest c => exact ⟨n, hend, le_rfl⟩
  | @task t s s₁ new rest visits c hstep hgo ih =>
    rw [builtIn_cons] at hflat ⊢
    obtain ⟨hhere, hbehind⟩ := List.forall_mem_append.mp hflat
    obtain ⟨hparent, hparents⟩ := List.forall_mem_cons.mp hroots
    have hkeeps := Task.step_keeps hstep
    obtain ⟨n₁, hend₁, hle⟩ := ih ⟨fun i => hkeeps.blocks ▸ hb.nonnull i, hkeeps.blocks ▸ hb.injective⟩
      hparents hbehind (fun i hi => hkeeps.blocks ▸ hfresh i (hkeeps.mallocs.trans hi)) hend
    rw [List.length_append]
    rcases Task.step_cases hstep with ⟨hnone, -, k, rfl⟩ |
      ⟨f, i, count, limit, index, bytes, inode, name, dir, rfl, hlt, hkind, -, -⟩ |
      ⟨f, i, count, limit, index, bytes, inode, name, rfl, hlt, hkind, hadd, -⟩
    · refine ⟨n₁, hend₁, ?_⟩
      rw [hnone]
      simpa using hle
    · have hdir := hhere ⟨f.root, s.kernel.blocks (s.kernel.mallocs + 2), i,
        offsetOf F count bytes, bytes, true⟩ (by simp [builtAt, hkind, hlt])
      exact absurd hdir (by simp)
    · obtain rfl : f.root = root := hparent
      obtain ⟨n₀, hend₀, hlt₀, -⟩ := addFile_grows (s := s.skip 2) ⟨hb.nonnull, hb.injective⟩
        (hfresh _ (Nat.le_add_right ..)) hadd hend₁
      refine ⟨n₀, hend₀, ?_⟩
      have hone : (builtAt F (.entry f i count limit index bytes, s)).toList.length = 1 := by
        simp [builtAt, hkind, hlt]
      rw [hone]
      omega

/-- **Clean blocks**: if the list has grown by the number of objects only then the blocks that its
new entries are made of have had null links. -/
theorem clean_of_ends {c c' : Agenda Task Ext2State} (hb : Blocks k₀)
    (hdoes : Does (Task.step F fs fuel) c v c') (hroots : ∀ p ∈ v, p.1.parent = root)
    (hflat : ∀ b ∈ builtIn F v, b.isDirectory = false) (h : Tidy k₀ c.2.kernel root added)
    (hend : Ends c'.2.kernel root (added.length + (builtIn F v).length)) :
    ∀ p ∈ v, builtAt F p ≠ none → k₀.nextEntry (k₀.blocks (p.2.kernel.mallocs + 3)) = 0 := by
  induction hdoes generalizing added with
  | rest c => simp
  | @task t s s₁ new rest visits c hstep hgo ih =>
    rw [builtIn_cons] at hflat hend
    obtain ⟨hhere, hbehind⟩ := List.forall_mem_append.mp hflat
    obtain ⟨hparent, hparents⟩ := List.forall_mem_cons.mp hroots
    have hkeeps := Task.step_keeps hstep
    rw [List.length_append] at hend
    rcases Task.step_cases hstep with ⟨hnone, -, k, rfl⟩ |
      ⟨f, i, count, limit, index, bytes, inode, name, dir, rfl, hlt, hkind, -, -⟩ |
      ⟨f, i, count, limit, index, bytes, inode, name, rfl, hlt, hkind, hadd, -⟩
    · rw [hnone] at hend
      refine List.forall_mem_cons.mpr ⟨fun hne => absurd hnone hne, ?_⟩
      exact ih hparents hbehind (h.skip k) (by simpa using hend)
    · have hdir := hhere ⟨f.root, s.kernel.blocks (s.kernel.mallocs + 2), i,
        offsetOf F count bytes, bytes, true⟩ (by simp [builtAt, hkind, hlt])
      exact absurd hdir (by simp)
    · obtain rfl : f.root = root := hparent
      have hone : (builtAt F (.entry f i count limit index bytes, s)).toList.length = 1 := by
        simp [builtAt, hkind, hlt]
      rw [hone] at hend
      have hblocks : Blocks s₁.kernel := by
        have heq : s₁.kernel.blocks = k₀.blocks := hkeeps.blocks.trans h.blocks
        exact ⟨fun i => heq ▸ hb.nonnull i, heq ▸ hb.injective⟩
      have hskip : Tidy k₀ (s.skip 2).kernel f.root added := h.skip 2
      have hfresh : ∀ i, s₁.kernel.mallocs ≤ i → f.root ≠ s₁.kernel.blocks i := fun i hi =>
        hkeeps.blocks ▸ h.root_ne (hkeeps.mallocs.trans hi)
      -- the list had as many entries before, and one more after the step
      obtain ⟨n₁, hend₁, hle⟩ := ends_run hgo hblocks hparents hbehind hfresh hend
      have hblocks₀ : Blocks (s.skip 2).kernel :=
        ⟨fun i => h.blocks ▸ hb.nonnull i, h.blocks ▸ hb.injective⟩
      obtain ⟨n₀, hend₀, hlt₀, hlink⟩ := addFile_grows hblocks₀ (hskip.root_ne le_rfl) hadd hend₁
      obtain ⟨entries, hbuilt⟩ := hskip.built
      have hstart : Ends (s.skip 2).kernel f.root added.length := by
        refine ⟨entries f.root, hbuilt.chain _ (List.mem_singleton_self _), fun t ht =>
          (hbuilt.taken _ (List.mem_singleton_self _) t ht).nonnull hblocks₀, ?_⟩
        rw [← hbuilt.items _ (List.mem_singleton_self _), List.length_map]
      obtain rfl := hend₀.unique hstart
      have hclean := hlink (by omega)
      rw [hskip.blocks, hskip.links _ (Nat.le_succ _)] at hclean
      refine List.forall_mem_cons.mpr ⟨fun _ => hclean, ?_⟩
      apply ih hparents hbehind (hskip.addFile hb hadd hclean)
      rw [List.length_append, List.length_singleton]
      exact (show added.length + (1 + (builtIn F visits).length) =
        added.length + 1 + (builtIn F visits).length by omega) ▸ hend

/-! ## From the entries to a run -/

/-- An entry of which a file can be made. -/
structure Makes (F : FileSystem) (k₀ : State) (fuel : ℕ) (p : Met) : Prop where
  file : FileEntry F p.entry
  clean : k₀.nextEntry (k₀.blocks (p.object + 1)) = 0
  bound : p.object + 1 ≤ fuel

/-- The import of tasks makes files of these entries. -/
def Runs (F : FileSystem) (fs fuel root : ℕ) (k₀ : State) (held : ℕ → ℕ → UInt8) (w : List Task)
    (m : ℕ) (met : List Met) (m' : ℕ) : Prop :=
  ∀ s added, s.kernel.mallocs = m → s.held = held → Tidy k₀ s.kernel root added →
    ∃ v s', Does (Task.step F fs fuel) (w, s) v ([], s') ∧
      builtIn F v = met.map (Met.built root k₀.blocks) ∧ s'.held = held ∧ s'.kernel.mallocs = m' ∧
      Tidy k₀ s'.kernel root (added ++ met.map fun p => k₀.blocks p.object)

theorem Tidy.addFile_some (h : Tidy k₀ s.kernel root added) (hb : Blocks k₀) (hroot : root ≠ 0)
    (hfuel : s.kernel.mallocs + 1 ≤ fuel) (hname : name.length ≤ 128) (fs inode : ℕ) :
    ∃ s', Fs.addFile fuel fs s root inode name = .ok s' := by
  let header := copyHeader (s.kernel.objects (s.kernel.blocks s.kernel.mallocs)).header name
  obtain ⟨entries, hbuilt⟩ := h.built
  have hplant : DirsBuilt (plant s.kernel ⟨header, inode⟩) [root] (fun _ => added) entries := by
    refine hbuilt.mono (fun d hd => ?_) rfl rfl (Nat.le_succ _)
    rw [List.mem_singleton.mp hd]
    exact congrArg _ (Function.update_of_ne (h.root_ne le_rfl) ..)
  have hb' : Blocks (plant s.kernel ⟨header, inode⟩) :=
    ⟨fun i => h.blocks ▸ hb.nonnull i, h.blocks ▸ hb.injective⟩
  obtain ⟨k, hadd⟩ := addChild_some (o := s.kernel.blocks s.kernel.mallocs) hplant hb'
    (List.mem_singleton_self _) hroot (show s.kernel.mallocs + 1 ≤ fuel from hfuel)
  unfold Fs.addFile
  simp only [if_neg (Nat.not_lt_of_le hname)]
  exact ⟨_, Libc.bind_eq_ok.mpr ⟨k, orFault_eq_ok.mpr hadd, rfl⟩⟩

/-- **A step that makes a file**, or none. -/
theorem entry_step_ok (fs : ℕ) (hb : Blocks k₀) (hroot : f.root ≠ 0) (hlt : index < limit)
    (hlong : 1536 < bytes.length)
    (hmakes : ∀ p ∈ metAt F i count s.kernel.mallocs bytes, Makes F k₀ fuel p)
    (h : Tidy k₀ s.kernel f.root added) :
    ∃ s', Task.step F fs fuel s (.entry f i count limit index bytes) =
        .ok (entryBehind f i count limit index bytes, s') ∧
      (∀ b ∈ builtAt F (.entry f i count limit index bytes, s), b.isDirectory = false) ∧
      Tidy k₀ s'.kernel f.root (added ++ (metAt F i count s.kernel.mallocs bytes).map fun p =>
        k₀.blocks p.object) := by
  have hsize : readField bytes 4 2 = .ok (field bytes 4 2) := readField_of_le (by omega)
  have hfirst : readField bytes 8 1 = .ok (field bytes 8 1) := readField_of_le (by omega)
  obtain ⟨dots, hdots⟩ := isDots_isOk_iff.mpr (show DotsSafe bytes from
    ⟨by omega, fun _ => ⟨by omega, fun _ => by omega⟩⟩)
  cases dots with
  -- one of the dots: nothing is made, and the loop goes on even without a size
  | true =>
    have hnone : metAt F i count s.kernel.mallocs bytes = [] := if_pos (.inl hdots)
    have hkind : kindOf F bytes = .ok .dots := by
      simp [kindOf, hfirst, hdots, bind, Except.bind]
    refine ⟨s, ?_, ?_, ?_⟩
    · simp [Task.step, hlt, hkind, hsize, entryBehind, hdots, bind, Except.bind]
    · simp [builtAt, hkind, hlt]
    · simpa [hnone] using h
  | false =>
    have hmore : Task.more f i count limit index bytes (field bytes 4 2) =
        entryBehind f i count limit index bytes := more_eq_entryBehind (by simp [hdots])
    by_cases hzero : field bytes 8 1 = 0
    · have hnone : metAt F i count s.kernel.mallocs bytes = [] := if_pos (.inr hzero)
      have hkind : kindOf F bytes = .ok .blank := by
        simp [kindOf, hfirst, hdots, hzero, bind, Except.bind]
      refine ⟨s, ?_, ?_, ?_⟩
      · simp [Task.step, hlt, hkind, hsize, hmore, bind, Except.bind]
      · simp [builtAt, hkind, hlt]
      · simpa [hnone] using h
    · have hone : metAt F i count s.kernel.mallocs bytes =
          [⟨i, offsetOf F count bytes, bytes, s.kernel.mallocs + 2⟩] := by
        apply if_neg
        simp [hdots, hzero]
      rw [hone] at hmakes ⊢
      obtain ⟨⟨inode, name, hkind⟩, hclean, hfuel⟩ := hmakes _ (List.mem_singleton_self _)
      -- the entry is met, so a file can be made of it
      have hname := (kindOf_spec hkind).2.2.2.2.2.2.1
      obtain ⟨s', hadd⟩ := Tidy.addFile_some (s := s.skip 2) (h.skip 2) hb hroot hfuel hname fs inode
      refine ⟨s', ?_, ?_, ?_⟩
      · simp [Task.step, hlt, hkind, hsize, hadd, hmore, bind, Except.bind]
      · simp [builtAt, hkind, hlt]
      · exact Tidy.addFile (s := s.skip 2) (h.skip 2) hb hadd hclean

theorem Runs.nil : Runs F fs fuel root k₀ held [] m [] m := by
  intro s added hm hheld h
  exact ⟨[], s, .rest _, rfl, hheld, hm, by simpa using h⟩

theorem Runs.append {w' : List Task} {met' : List Met} {m'' : ℕ}
    (h : Runs F fs fuel root k₀ held w m met m') (h' : Runs F fs fuel root k₀ held w' m' met' m'') :
    Runs F fs fuel root k₀ held (w ++ w') m (met ++ met') m'' := by
  intro s added hm hheld htidy
  obtain ⟨v, s₁, hv, hbuilt, hheld₁, hm₁, htidy₁⟩ := h s added hm hheld htidy
  obtain ⟨v', s₂, hv', hbuilt', hheld₂, hm₂, htidy₂⟩ := h' s₁ _ hm₁ hheld₁ htidy₁
  refine ⟨v ++ v', s₂, (hv.frame w').trans hv', ?_, hheld₂, hm₂, ?_⟩
  · rw [builtIn_append, hbuilt, hbuilt', List.map_append]
  · rwa [List.map_append, ← List.append_assoc]

/-- A task that makes nothing itself. -/
theorem Runs.plain {t : Task} {k : ℕ} (hplain : ∀ s, builtAt F (t, s) = none)
    (hstep : ∀ s : Ext2State, s.kernel.mallocs = m → s.held = held →
      Task.step F fs fuel s t = .ok (new, s.skip k))
    (h : Runs F fs fuel root k₀ held new (m + k) met m') :
    Runs F fs fuel root k₀ held [t] m met m' := by
  intro s added hm hheld htidy
  obtain ⟨v, s', hv, hbuilt, hrest⟩ := h (s.skip k) added (congrArg (· + k) hm) hheld (htidy.skip k)
  refine ⟨(t, s) :: v, s', .task (hstep s hm hheld) (by rwa [List.append_nil]), ?_, hrest⟩
  rw [builtIn_cons, hplain, hbuilt]
  rfl

/-- The end of a sector. -/
theorem end_runs (hal : Aligned F count limit index bytes) (hshort : bytes.length ≤ 1536) :
    Runs F fs fuel f.root k₀ held [.entry f i count limit index bytes] m [] m := by
  have hge : ¬ index < limit := hal.lt_iff.not.mpr (by omega)
  apply Runs.plain (k := 0) (fun s => ?_) (fun s _ _ => ?_) .nil
  · simp [builtAt, hge]
  · exact if_neg hge

/-- **The entries of a sector** are imported if files can be made of them. -/
theorem entry_runs (hb : Blocks k₀) (hroot : f.root ≠ 0)
    (hmet : entriesMet F i count n m bytes = some met)
    (hal : Aligned F count limit index bytes) (hmakes : ∀ p ∈ met, Makes F k₀ fuel p) :
    Runs F fs fuel f.root k₀ held [.entry f i count limit index bytes] m met
      (m + 4 * met.length) := by
  induction n generalizing m bytes met index with
  | zero =>
    unfold entriesMet at hmet
    split_ifs at hmet with hshort
    obtain rfl := Option.some.inj hmet
    exact end_runs hal hshort
  | succ n ih =>
    unfold entriesMet at hmet
    split_ifs at hmet with hshort hsize
    · obtain rfl := Option.some.inj hmet
      exact end_runs hal hshort
    · obtain rfl := Option.some.inj hmet
      intro s added hm hheld htidy
      have hlt := hal.lt_iff.mpr (by omega)
      subst hm
      obtain ⟨s', hstep, hfile, htidy'⟩ := entry_step_ok fs hb hroot hlt (by omega) hmakes htidy
      obtain ⟨-, hbuilt, hmallocs, -⟩ := entry_step hlt hstep hfile
      have hkeeps := Task.step_keeps hstep
      refine ⟨[_], s', .task hstep ?_, ?_, hkeeps.held.trans hheld, hmallocs, htidy'⟩
      · rw [entryBehind, if_pos hsize]
        exact .rest _
      · rw [builtIn_cons, hbuilt, htidy.blocks]
        exact List.append_nil _
    · obtain ⟨behind, hbehind, rfl⟩ := Option.map_eq_some_iff.mp hmet
      obtain ⟨hhere, hthere⟩ := List.forall_mem_append.mp hmakes
      intro s added hm hheld htidy
      have hlt := hal.lt_iff.mpr (by omega)
      subst hm
      obtain ⟨s₁, hstep, hfile, htidy₁⟩ := entry_step_ok fs hb hroot hlt (by omega) hhere htidy
      obtain ⟨-, hbuilt, hmallocs, -⟩ := entry_step hlt hstep hfile
      have hkeeps := Task.step_keeps hstep
      -- the rest of the sector
      have hal' := hal.behind hlt _ (field_lt bytes 4 2)
      have hrest := ih hbehind hal' hthere
      obtain ⟨v, s', hv, hbuilt', hheld', hm', htidy'⟩ := hrest s₁ _ hmallocs
        (hkeeps.held.trans hheld) htidy₁
      refine ⟨_ :: v, s', .task hstep ?_, ?_, hheld', ?_, ?_⟩
      · rw [entryBehind, if_neg hsize]
        exact hv
      · rw [builtIn_cons, hbuilt, hbuilt', htidy.blocks, List.map_append]
      · rw [hm', List.length_append]
        omega
      · rwa [List.map_append, ← List.append_assoc]

theorem inTurn_runs (h : ∀ x ∈ xs, ∀ m met m', g m x = some (met, m') →
      (∀ p ∈ met, Makes F k₀ fuel p) → Runs F fs fuel root k₀ held [task x] m met m')
    (hmet : inTurn g m xs = some (met, m')) (hmakes : ∀ p ∈ met, Makes F k₀ fuel p) :
    Runs F fs fuel root k₀ held (xs.map task) m met m' := by
  induction xs generalizing m met with
  | nil =>
    obtain ⟨rfl, rfl⟩ := Prod.mk.inj (Option.some.inj hmet)
    exact .nil
  | cons x xs ih =>
    obtain ⟨⟨here, m₁⟩, hhere, hmet⟩ := Option.bind_eq_some_iff.mp hmet
    obtain ⟨⟨behind, m₂⟩, hbehind, hmet⟩ := Option.bind_eq_some_iff.mp hmet
    obtain ⟨rfl, rfl⟩ := Prod.mk.inj (Option.some.inj hmet)
    obtain ⟨hmakes₁, hmakes₂⟩ := List.forall_mem_append.mp hmakes
    exact (h x (List.mem_cons_self ..) m here m₁ hhere hmakes₁).append
      (ih (fun y hy => h y (List.mem_cons_of_mem _ hy)) hbehind hmakes₂)

theorem sector_runs (hb : Blocks k₀) (hroot : f.root ≠ 0) (hdevice : F.blockDevice.blockSize = 512)
    (hcount : count < 128) (hmet : sectorMet F held i pointer m count = some (met, m'))
    (hmakes : ∀ p ∈ met, Makes F k₀ fuel p) :
    Runs F fs fuel f.root k₀ held [.sector f i pointer count] m met m' := by
  obtain ⟨location, hlocation, hmet⟩ := Option.bind_eq_some_iff.mp hmet
  obtain ⟨entries, hentries, hmet⟩ := Option.bind_eq_some_iff.mp hmet
  obtain ⟨rfl, rfl⟩ := Prod.mk.inj (Option.some.inj hmet)
  have hok : sectorOf F pointer count = .ok location := by
    revert hlocation
    cases sectorOf F pointer count with
    | error e => simp [Except.toOption]
    | ok l => simp [Except.toOption]
  apply Runs.plain (k := 1) (fun s => rfl) (fun s hm hheld => ?_)
    (entry_runs hb hroot hentries (.start hdevice hcount location _) hmakes)
  simp only [Task.step, hok, bind, Except.bind]
  rw [hm, hheld]

theorem block_runs {inode : List UInt8} (hb : Blocks k₀) (hroot : f.root ≠ 0)
    (hdevice : F.blockDevice.blockSize = 512) (hsectors : blockSize F / 512 ≤ 128)
    (hlen : 44 + 4 * i ≤ inode.length) (hmet : blockMet F held inode m i = some (met, m'))
    (hmakes : ∀ p ∈ met, Makes F k₀ fuel p) :
    Runs F fs fuel f.root k₀ held [.block f inode i] m met m' := by
  have hpointer : readField inode (40 + 4 * i) 4 = .ok (directBlock inode i) :=
    readField_of_le (by omega)
  unfold blockMet at hmet
  split_ifs at hmet with hzero
  · -- a hole
    obtain ⟨rfl, rfl⟩ := Prod.mk.inj (Option.some.inj hmet)
    apply Runs.plain (k := 0) (fun s => rfl) (fun s _ _ => ?_) .nil
    simp only [Task.step, hpointer, hzero, bind, Except.bind, if_true]
    rfl
  · rw [hdevice] at hmet
    have hdivide : divide (blockSize F) F.blockDevice.blockSize = .ok (blockSize F / 512) :=
      divide_eq_ok.mpr ⟨by rw [hdevice]; decide, by rw [hdevice]⟩
    have hturn : Runs F fs fuel f.root k₀ held
        ((List.range (blockSize F / 512)).map (Task.sector f i (directBlock inode i))) m met m' :=
      inTurn_runs (fun count hcount m met m' => sector_runs hb hroot hdevice
        ((List.mem_range.mp hcount).trans_le hsectors)) hmet hmakes
    apply Runs.plain (k := 0) (fun s => rfl) (fun s _ _ => ?_) hturn
    simp only [Task.step, hpointer, hzero, hdivide, bind, Except.bind, if_false]
    rfl

/-! ## The import of a directory -/

variable {old : List ℕ} {index : ℕ} {entries : ℕ → List ℕ}

theorem inTurn_congr {g' : ℕ → α → Option (List Met × ℕ)}
    (h : ∀ x ∈ xs, ∀ m, g m x = g' m x) : inTurn g m xs = inTurn g' m xs := by
  induction xs generalizing m with
  | nil => rfl
  | cons x xs ih =>
    simp only [inTurn, h x (List.mem_cons_self ..)]
    refine congrArg _ (funext fun here => ?_)
    rw [ih fun y hy => h y (List.mem_cons_of_mem _ hy)]

/-- Only the inode itself matters, and not the bytes behind it. -/
theorem directoryMet_append {inode : List UInt8} (hlen : inode.length = 128) (rest : List UInt8) :
    directoryMet F held (inode ++ rest) m = directoryMet F held inode m := by
  refine inTurn_congr fun i hi m => ?_
  have hi : i < 12 := List.mem_range.mp hi
  have hblock : directBlock (inode ++ rest) i = directBlock inode i :=
    field_append (by omega) rest
  simp only [blockMet, hblock]

/-- What is true of the entries of every sector is true of all entries. -/
theorem forall_mem_inTurn {P : Met → Prop}
    (h : ∀ x ∈ xs, ∀ m met m', g m x = some (met, m') → ∀ p ∈ met, P p)
    (hmet : inTurn g m xs = some (met, m')) : ∀ p ∈ met, P p := by
  induction xs generalizing m met with
  | nil =>
    obtain ⟨rfl, rfl⟩ := Prod.mk.inj (Option.some.inj hmet)
    simp
  | cons x xs ih =>
    obtain ⟨⟨here, m₁⟩, hhere, hmet⟩ := Option.bind_eq_some_iff.mp hmet
    obtain ⟨⟨behind, m₂⟩, hbehind, hmet⟩ := Option.bind_eq_some_iff.mp hmet
    obtain ⟨rfl, rfl⟩ := Prod.mk.inj (Option.some.inj hmet)
    exact List.forall_mem_append.mpr ⟨h x (List.mem_cons_self ..) m here m₁ hhere,
      ih (fun y hy => h y (List.mem_cons_of_mem _ hy)) hbehind⟩

/-- An entry with a name of its own that starts in the sector. -/
def Named (p : Met) : Prop :=
  1536 < p.entry.length ∧ isDots p.entry = .ok false ∧ field p.entry 8 1 ≠ 0

theorem metAt_named (hlong : ¬ bytes.length ≤ 1536) : ∀ p ∈ metAt F i count m bytes, Named p := by
  unfold metAt
  split_ifs with hname
  · simp
  · obtain ⟨hdots, hzero⟩ := not_or.mp hname
    obtain ⟨dots, hsome⟩ := isDots_isOk_iff.mpr (show DotsSafe bytes from
      ⟨by omega, fun _ => ⟨by omega, fun _ => by omega⟩⟩)
    intro p hp
    rw [List.mem_singleton.mp hp]
    refine ⟨by simpa using hlong, ?_, hzero⟩
    cases dots with
    | true => exact absurd hsome hdots
    | false => exact hsome

theorem entriesMet_named (h : entriesMet F i count n m bytes = some met) : ∀ p ∈ met, Named p := by
  induction n generalizing m bytes met with
  | zero =>
    unfold entriesMet at h
    split_ifs at h
    obtain rfl := Option.some.inj h
    simp
  | succ n ih =>
    unfold entriesMet at h
    split_ifs at h with hend hsize
    · obtain rfl := Option.some.inj h
      simp
    · obtain rfl := Option.some.inj h
      exact metAt_named hend
    · obtain ⟨behind, hbehind, rfl⟩ := Option.map_eq_some_iff.mp h
      exact List.forall_mem_append.mpr ⟨metAt_named hend, ih hbehind⟩

theorem directoryMet_named {inode : List UInt8}
    (h : directoryMet F held inode m = some (met, m')) : ∀ p ∈ met, Named p := by
  refine forall_mem_inTurn (fun i _ m met m' hblock => ?_) h
  unfold blockMet at hblock
  split_ifs at hblock with hzero
  · obtain ⟨rfl, rfl⟩ := Prod.mk.inj (Option.some.inj hblock)
    simp
  · refine forall_mem_inTurn (fun count _ m met m' hsector => ?_) hblock
    obtain ⟨location, -, hsector⟩ := Option.bind_eq_some_iff.mp hsector
    obtain ⟨found, hfound, hsector⟩ := Option.bind_eq_some_iff.mp hsector
    obtain ⟨rfl, rfl⟩ := Prod.mk.inj (Option.some.inj hsector)
    exact entriesMet_named hfound

/-- The children made of files. -/
theorem sources_met (root : ℕ) (blocks : ℕ → ℕ) (met : List Met) :
    sources root (met.map (Met.built root blocks)) =
      met.map fun p => (blocks p.object, p.place) := by
  induction met with
  | nil => rfl
  | cons p met ih =>
    have hcons : sources root ((p :: met).map (Met.built root blocks)) =
        (blocks p.object, p.place) :: sources root (met.map (Met.built root blocks)) := by
      simp [sources, Met.built, Built.children, Built.place, Met.place]
    rw [hcons, ih, List.map_cons]

/-- A directory that is made of an entry is a child twice. -/
theorem not_nodup_of_directory {bs : List Built} {b : Built} (hb : b ∈ bs) (hroot : b.root = root)
    (hdir : b.isDirectory = true) : ¬ ((sources root bs).map Prod.snd).Nodup := by
  unfold sources
  rw [List.map_flatMap]
  intro hnodup
  have htwice := (List.nodup_flatMap.mp hnodup).1 b
    (List.mem_filter.mpr ⟨hb, decide_eq_true hroot⟩)
  simp [Built.children, hdir] at htwice

theorem enter_step {rest : List UInt8} (hindex : 1 ≤ index)
    (hinode : inodeAt F index = .ok (diskInode F index ++ rest))
    (hdir : field (diskInode F index) 0 2 &&& 0x4000 ≠ 0) (s : Ext2State) (root : ℕ) :
    Task.step F fs fuel s (.enter [] root index) =
      .ok ((List.range 12).map (.block ⟨[index], root⟩ (diskInode F index ++ rest)),
        s.skip 2) := by
  have hlen := length_diskInode (F := F) index
  have htype : readField (diskInode F index ++ rest) 0 2 = .ok (field (diskInode F index) 0 2) := by
    rw [readField_of_le (by rw [List.length_append, hlen]; omega), field_append (by rw [hlen]; omega)]
  have hnull : ¬ index < 1 := by omega
  simp [Task.step, readInode, hnull, hinode, htype, hdir, bind, Except.bind]

/-- A name of a live entry that is a file makes a file. -/
theorem fileEntry_of {p : Met} (hnamed : Named p) (hread : ReadsInode F (field p.entry 0 4))
    (hfile : field (diskInode F (field p.entry 0 4)) 0 2 &&& 0x4000 = 0)
    (hname : field p.entry 6 1 ≤ 128) : FileEntry F p.entry := by
  obtain ⟨hlong, hdots, hzero⟩ := hnamed
  obtain ⟨hpos, rest, hinode⟩ := hread
  have hlen := length_diskInode (F := F) (field p.entry 0 4)
  have hfirst : readField p.entry 8 1 = .ok (field p.entry 8 1) := readField_of_le (by omega)
  have hnumber : readField p.entry 0 4 = .ok (field p.entry 0 4) := readField_of_le (by omega)
  have hlength : readField p.entry 6 1 = .ok (field p.entry 6 1) := readField_of_le (by omega)
  have htype : readField (diskInode F (field p.entry 0 4) ++ rest) 0 2 =
      .ok (field (diskInode F (field p.entry 0 4)) 0 2) := by
    rw [readField_of_le (by rw [List.length_append, hlen]; omega), field_append (by rw [hlen]; omega)]
  have hbytes : readBytes p.entry 8 (field p.entry 6 1) = .ok (nameOf p.entry) :=
    if_pos (by omega)
  have hnull : ¬ field p.entry 0 4 < 1 := by omega
  have hshort : ¬ 128 < (nameOf p.entry).length := by
    rw [nameOf, List.length_take]
    omega
  refine ⟨field p.entry 0 4, nameOf p.entry, ?_⟩
  simp [kindOf, hfirst, hdots, hzero, hnumber, entryInode, hnull, hinode, htype, hfile, hlength,
    hbytes, hshort, bind, Except.bind]

theorem FileEntry.spec {entry : List UInt8} (h : FileEntry F entry) :
    field entry 6 1 ≤ 128 ∧ ∃ object type, inodeAt F (field entry 0 4) = .ok object ∧
      readField object 0 2 = .ok type ∧ type &&& 0x4000 = 0 := by
  obtain ⟨inode, name, hkind⟩ := h
  obtain ⟨-, -, -, rfl, -, hname, hshort, hobject⟩ := kindOf_spec hkind
  refine ⟨?_, hobject⟩
  unfold readBytes at hname
  split_ifs at hname with hlen
  obtain rfl := Except.ok.inj hname
  rw [List.length_take, List.length_drop] at hshort
  omega

/-- The conditions under which a directory is imported one-to-one: the sizes of the entries lead to
its live entries, which are files with names that fit, and the links of the list are null. -/
structure Importable (F : FileSystem) (s : Ext2State) (index : ℕ) (met : List Met) : Prop where
  live : (met.map Met.place).Perm (liveEntries F (diskInode F index))
  files : ∀ p ∈ liveEntries F (diskInode F index), inodeType (diskInode F p.inode) ≠ 0x4000
  names : ∀ p ∈ met, field p.entry 6 1 ≤ 128
  links : ∀ p ∈ met, s.kernel.nextEntry (s.kernel.blocks (p.object + 1)) = 0

/-- The import of a directory comes to entries that are as they should be. -/
def ComesToImportable (F : FileSystem) (s : Ext2State) (index : ℕ) : Prop :=
  ∃ met m', directoryMet F s.held (diskInode F index) (s.kernel.mallocs + 2) = some (met, m') ∧
    Importable F s index met

/-- A list that is what it should be is made of blocks with null links. -/
theorem links_of_run (hb : Blocks s.kernel)
    (hold : DirsBuilt s.kernel [root] (fun _ => old) entries) {w : List Task}
    (hdoes : Does (Task.step F fs fuel) (w, s) v ([], s'))
    (hroots : ∀ p ∈ v, p.1.parent = root) (hflat : ∀ b ∈ builtIn F v, b.isDirectory = false)
    {objects : List ℕ} (hexact : DirsExact s'.kernel [root] fun _ => old ++ objects)
    (hlen : objects.length = (builtIn F v).length) :
    ∀ p ∈ v, builtAt F p ≠ none →
      s.kernel.nextEntry (s.kernel.blocks (p.2.kernel.mallocs + 3)) = 0 := by
  have hstart : Tidy s.kernel s.kernel root old := ⟨rfl, le_rfl, fun _ _ => rfl, entries, hold⟩
  apply clean_of_ends hb hdoes hroots hflat hstart
  obtain ⟨ys, hys, hnonnull, hitems⟩ := hexact root (List.mem_singleton_self _)
  have hcount := congrArg List.length hitems
  rw [List.length_map, List.length_append, hlen] at hcount
  exact ⟨ys, hys, hnonnull, hcount⟩

/-- A run without directories has come to the entries that are computed, and has made a file of
each. -/
theorem met_of_run (hF : WellFormed F) (hread : ReadsInode F index)
    (hdir : field (diskInode F index) 0 2 &&& 0x4000 ≠ 0)
    (hdoes : Does (Task.step F fs fuel) ([.enter [] root index], s) v ([], s'))
    (hflat : ∀ b ∈ builtIn F v, b.isDirectory = false) :
    ∃ met, directoryMet F s.held (diskInode F index) (s.kernel.mallocs + 2) =
        some (met, s'.kernel.mallocs) ∧
      builtIn F v = met.map (Met.built root s.kernel.blocks) ∧ ∀ p ∈ met, FileEntry F p.entry := by
  obtain ⟨n, hsize, -, hsectors⟩ := hF.exists_sectors
  obtain ⟨hpos, rest, hinode⟩ := hread
  cases hdoes with
  | @task _ _ s₁ new _ visits _ hstep hgo =>
    obtain ⟨rfl, rfl⟩ := Prod.mk.inj (Except.ok.inj
      ((enter_step hpos hinode hdir s root).symm.trans hstep))
    have hnone : builtIn F ((.enter [] root index, s) :: visits) = builtIn F visits := by
      rw [builtIn_cons]
      rfl
    rw [hnone] at hflat ⊢
    rw [List.append_nil] at hgo
    have hexplains : Explains F fs fuel root s.held s.kernel.blocks
        (fun m => directoryMet F s.held (diskInode F index ++ rest) m)
        ((List.range 12).map (.block ⟨[index], root⟩ (diskInode F index ++ rest))) :=
      explains_inTurn fun i _ => explains_block hF.device (by omega)
    obtain ⟨met, hmet, hbuilt⟩ := hexplains (s.skip 2) visits s' rfl rfl hgo hflat
    exact ⟨met, (directoryMet_append (length_diskInode index) rest).symm.trans hmet, hbuilt⟩

/-- The entries that a one-to-one import has come to. -/
theorem importable_of_run (hF : WellFormed F) (hread : ∀ index, InTree F index → ReadsInode F index)
    (htree : InTree F index) (htype : inodeType (diskInode F index) = 0x4000)
    (hb : Blocks s.kernel) (hold : DirsBuilt s.kernel [root] (fun _ => old) entries)
    (hdoes : Does (Task.step F fs fuel) ([.enter [] root index], s) v ([], s'))
    (hexact : DirsExact s'.kernel [root] fun _ =>
      old ++ (sources root (builtIn F v)).map Prod.fst)
    (hperm : ((sources root (builtIn F v)).map Prod.snd).Perm
      (liveEntries F (diskInode F index))) :
    ComesToImportable F s index := by
  -- a directory would be a child twice
  have hnodup : ((sources root (builtIn F v)).map Prod.snd).Nodup :=
    hperm.nodup_iff.mpr nodup_liveEntries
  have hparent : ∀ t ∈ [Task.enter [] root index], t.parent = root := by
    intro t ht
    rw [List.mem_singleton.mp ht]
    rfl
  obtain ⟨hroots, hflat⟩ := flat_of_root hdoes hparent fun b hb hroot =>
    Bool.eq_false_of_not_eq_true fun htrue => not_nodup_of_directory hb hroot htrue hnodup
  obtain ⟨met, hmet, hbuilt, hfiles⟩ := met_of_run hF (hread index htree)
    ((hF.isDirectory_iff htree).mpr htype) hdoes hflat
  have hsources := sources_met root s.kernel.blocks met
  rw [hbuilt, hsources, List.map_map] at hperm hexact
  have hlinks := links_of_run hb hold hdoes hroots hflat hexact (by simp [hbuilt])
  replace hperm : (met.map Met.place).Perm (liveEntries F (diskInode F index)) := hperm
  refine ⟨met, s'.kernel.mallocs, hmet, hperm, fun p hp htype' => ?_,
    fun p hp => (hfiles p hp).spec.1, fun p hp => ?_⟩
  · -- the test of the type came out against a directory
    obtain ⟨q, hq, rfl⟩ := List.mem_map.mp (hperm.mem_iff.mpr hp)
    have htree' : InTree F q.place.inode := .entry htree htype hp
    obtain ⟨object, type, hobject, hread', hbit⟩ := (hfiles q hq).spec.2
    obtain ⟨-, rest', hinode'⟩ := hread _ htree'
    obtain rfl := Except.ok.inj (hobject.symm.trans hinode')
    obtain ⟨-, rfl⟩ := readField_eq_ok.mp hread'
    rw [field_append (by rw [length_diskInode]; omega)] at hbit
    exact (hF.isDirectory_iff htree').mpr htype' hbit
  · -- the visit that the file was made in
    have hmem : p.built root s.kernel.blocks ∈ builtIn F v := hbuilt ▸ List.mem_map_of_mem hp
    obtain ⟨x, hx, hat⟩ := List.mem_filterMap.mp hmem
    obtain ⟨u, y, rest₁, new₁, s₂, hbefore, hstep, -⟩ := hdoes.of_mem hx
    have hobject := (Task.step_made hstep hat).2.1
    have hblocks : x.2.kernel.blocks = s.kernel.blocks := (does_keeps hbefore).blocks
    rw [hblocks] at hobject
    have hnumber : p.object = x.2.kernel.mallocs + 2 := hb.injective hobject
    have hlink := hlinks x hx (by simp [hat])
    rw [hnumber]
    exact hlink

/-- Entries that are as they should be are imported one-to-one. -/
theorem run_of_importable (hF : WellFormed F)
    (hread : ∀ index, InTree F index → ReadsInode F index) (htree : InTree F index)
    (htype : inodeType (diskInode F index) = 0x4000) (hb : Blocks s.kernel) (hroot : root ≠ 0)
    (hold : DirsBuilt s.kernel [root] (fun _ => old) entries)
    (hmet : directoryMet F s.held (diskInode F index) (s.kernel.mallocs + 2) = some (met, m'))
    (h : Importable F s index met) (fs : ℕ) (hfuel : ∀ p ∈ met, p.object + 1 ≤ fuel) :
    ∃ v s', Does (Task.step F fs fuel) ([.enter [] root index], s) v ([], s') ∧
      builtIn F v = met.map (Met.built root s.kernel.blocks) ∧
      Tidy s.kernel s'.kernel root (old ++ met.map fun p => s.kernel.blocks p.object) := by
  obtain ⟨n, hsize, -, hsectors⟩ := hF.exists_sectors
  obtain ⟨hpos, rest, hinode⟩ := hread index htree
  have hdir := (hF.isDirectory_iff htree).mpr htype
  -- every entry that is come to is a live entry
  have hmakes : ∀ p ∈ met, Makes F s.kernel fuel p := by
    intro p hp
    have hlive : p.place ∈ liveEntries F (diskInode F index) :=
      h.live.mem_iff.mp (List.mem_map_of_mem hp)
    have htree' : InTree F p.place.inode := .entry htree htype hlive
    have hfile := not_not.mp ((hF.isDirectory_iff htree').not.mpr (h.files _ hlive))
    exact ⟨fileEntry_of (directoryMet_named hmet p hp) (hread _ htree') hfile (h.names p hp),
      h.links p hp, hfuel p hp⟩
  have hruns : Runs F fs fuel root s.kernel s.held
      ((List.range 12).map (.block ⟨[index], root⟩ (diskInode F index ++ rest)))
      (s.kernel.mallocs + 2) met m' := by
    refine inTurn_runs (fun i hi m met m' hblock hmakes => ?_)
      ((directoryMet_append (length_diskInode index) rest).trans hmet) hmakes
    have hi : i < 12 := List.mem_range.mp hi
    apply block_runs (f := ⟨[index], root⟩) hb hroot hF.device (by omega) ?_ hblock hmakes
    rw [List.length_append, length_diskInode]
    omega
  obtain ⟨v, s', hv, hbuilt, -, -, htidy⟩ := hruns (s.skip 2) old rfl rfl
    ⟨rfl, Nat.le_add_right .., fun _ _ => rfl, entries, hold.mono (fun _ _ => rfl) rfl rfl
      (Nat.le_add_right ..)⟩
  refine ⟨(.enter [] root index, s) :: v, s', .task (enter_step hpos hinode hdir s root) ?_, ?_, htidy⟩
  · rw [List.append_nil]
    exact hv
  · rw [builtIn_cons, hbuilt]
    rfl

/-- The import of a directory with such entries is one-to-one, and takes a bounded number of
steps. -/
theorem oneToOne_of_importable (hF : WellFormed F)
    (hread : ∀ index, InTree F index → ReadsInode F index) (htree : InTree F index)
    (htype : inodeType (diskInode F index) = 0x4000) (hb : Blocks s.kernel) (hroot : root ≠ 0)
    (hold : DirsBuilt s.kernel [root] (fun _ => old) entries)
    (hmet : directoryMet F s.held (diskInode F index) (s.kernel.mallocs + 2) = some (met, m'))
    (h : Importable F s index met) (fs : ℕ) : OneToOne F fs s root index old := by
  obtain ⟨N, hN⟩ : ∃ N, ∀ p ∈ met, p.object + 1 ≤ N :=
    ⟨(met.map fun p => p.object + 1).sum, fun p hp =>
      List.le_sum_of_mem (List.mem_map_of_mem hp)⟩
  obtain ⟨v₀, s₀, hv₀, -⟩ := run_of_importable hF hread htree htype hb hroot hold hmet h fs hN
  refine ⟨max N (v₀.length + 1), fun fuel rounds depth hfuel hrounds hdepth => ?_⟩
  have hfuel' : ∀ p ∈ met, p.object + 1 ≤ fuel := fun p hp =>
    (hN p hp).trans ((le_max_left ..).trans hfuel)
  obtain ⟨v, s', hv, hbuilt, htidy⟩ :=
    run_of_importable hF hread htree htype hb hroot hold hmet h fs hfuel'
  -- the number of steps does not depend on the bound
  have hlen : v.length ≤ v₀.length := by
    have hle := (does_control hv₀).length_le (does_control hv)
    rwa [List.length_map, List.length_map] at hle
  have hrounds' := (le_max_right ..).trans hrounds
  have hdepth' := (le_max_right ..).trans hdepth
  obtain ⟨entries', hbuilt'⟩ := htidy.built
  have hblocks : Blocks s'.kernel :=
    ⟨fun i => htidy.blocks ▸ hb.nonnull i, htidy.blocks ▸ hb.injective⟩
  refine ⟨s', v, ok_of_does hv (by omega) (by omega), hv, ?_, ?_⟩
  · rw [hbuilt, sources_met, List.map_map]
    exact hbuilt'.exact hblocks
  · rw [hbuilt, sources_met, List.map_map]
    exact h.live

/-- **Directories that are imported one-to-one**: those of which the sizes of the entries, from the
start of every sector on, lead to the live entries, each of them once, and all live entries are
files with names that stay in their blocks, and the entries of the list are made of blocks with
null links. Where no name that is come to leaves its block, there are no others. -/
theorem import_one_to_one_iff (hF : WellFormed F)
    (hread : ∀ index, InTree F index → ReadsInode F index) (htree : InTree F index)
    (htype : inodeType (diskInode F index) = 0x4000) (hb : Blocks s.kernel) (hroot : root ≠ 0)
    (hold : DirsBuilt s.kernel [root] (fun _ => old) entries) (fs : ℕ) :
    (ComesToImportable F s index → OneToOne F fs s root index old) ∧
      ((∀ met m', directoryMet F s.held (diskInode F index) (s.kernel.mallocs + 2) =
          some (met, m') → ∀ p ∈ met, field p.entry 6 1 ≤ 128) →
        (OneToOne F fs s root index old ↔ ComesToImportable F s index)) := by
  have henough : ComesToImportable F s index → OneToOne F fs s root index old := by
    rintro ⟨met, m', hmet, h⟩
    exact oneToOne_of_importable hF hread htree htype hb hroot hold hmet h fs
  refine ⟨henough, fun _ => ⟨?_, henough⟩⟩
  rintro ⟨n, hn⟩
  obtain ⟨s', v, -, hdoes, hexact, hperm⟩ := hn n n n le_rfl le_rfl le_rfl
  exact importable_of_run hF hread htree htype hb hold hdoes hexact hperm

/-! ## Two small images -/

/-- The import of a root directory with one file comes to this file, also after the superblock was
read. -/
theorem oneFile_met (n : ℕ) (hn : n = 0 ∨ n = 2) : ∃ met m',
    directoryMet (oneEntry 0x81) emptyRoot.held (diskInode (oneEntry 0x81) 2)
      (emptyRoot.kernel.mallocs + n + 2) = some (met, m') ∧
    Importable (oneEntry 0x81) emptyRoot 2 met ∧
    met.map (fun p => (p.place, field p.entry 6 1, p.entry.getD 8 0, p.object)) =
      [(⟨0, 0, 3⟩, 1, 97, n + 5)] := by
  have hfound : (directoryMet (oneEntry 0x81) emptyRoot.held (diskInode (oneEntry 0x81) 2)
      (emptyRoot.kernel.mallocs + n + 2)).map
      (fun r => r.1.map fun p => (p.place, field p.entry 6 1, p.entry.getD 8 0, p.object)) =
        some [(⟨0, 0, 3⟩, 1, 97, n + 5)] := by
    rcases hn with rfl | rfl <;> decide +kernel
  obtain ⟨⟨met, m'⟩, hmet, hmap⟩ := Option.map_eq_some_iff.mp hfound
  have hplaces : met.map Met.place = [⟨0, 0, 3⟩] := by
    have hfst := congrArg (List.map Prod.fst) hmap
    rwa [List.map_map] at hfst
  have hlive : liveEntries (oneEntry 0x81) (diskInode (oneEntry 0x81) 2) = [⟨0, 0, 3⟩] := by
    decide +kernel
  refine ⟨met, m', hmet, ⟨?_, ?_, fun p hp => ?_, fun _ _ => rfl⟩, hmap⟩
  · rw [hplaces, hlive]
  · rw [hlive]
    decide
  · have hmem : (p.place, field p.entry 6 1, p.entry.getD 8 0, p.object) ∈
        [((⟨0, 0, 3⟩ : Place), 1, (97 : UInt8), n + 5)] := hmap ▸ List.mem_map_of_mem hp
    obtain ⟨-, hname⟩ := Prod.mk.inj (List.mem_singleton.mp hmem)
    have hlength : field p.entry 6 1 = 1 := congrArg Prod.fst hname
    omega

/-- A root directory with one file. -/
theorem import_one_file : OneToOne (oneEntry 0x81) 0 emptyRoot 0x1000 2 [] := by
  obtain ⟨entries, hold⟩ := emptyRoot_clean.built
  obtain ⟨met, m', hmet, himportable, -⟩ := oneFile_met 0 (.inl rfl)
  exact (import_one_to_one_iff (oneEntry_wellFormed 0x81 (.inr rfl))
    (oneEntry_reads 0x81 (.inr rfl)) .root (by decide) emptyRoot_clean.blocks (by decide)
    hold 0).1 ⟨met, m', hmet, himportable⟩

/-- A directory in the root directory is a child twice. -/
theorem import_directory_twice : WellFormed (oneEntry 0x41) ∧
    (∀ index, InTree (oneEntry 0x41) index → ReadsInode (oneEntry 0x41) index) ∧
    ¬ OneToOne (oneEntry 0x41) 0 emptyRoot 0x1000 2 [] := by
  have hF := oneEntry_wellFormed 0x41 (.inl rfl)
  have hread := oneEntry_reads 0x41 (.inl rfl)
  refine ⟨hF, hread, fun ⟨n, hn⟩ => ?_⟩
  obtain ⟨entries, hold⟩ := emptyRoot_clean.built
  obtain ⟨s', v, -, hdoes, hexact, hperm⟩ := hn n n n le_rfl le_rfl le_rfl
  obtain ⟨met, m', -, h⟩ := importable_of_run hF hread .root (by decide)
    emptyRoot_clean.blocks hold hdoes hexact hperm
  exact h.files ⟨0, 0, 3⟩ (by decide +kernel) (by decide +kernel)

end Cutesugar.Kernel.Fs
