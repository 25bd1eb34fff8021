import Cutesugar.Kernel.Fs.Ext2Safety
import Cutesugar.Kernel.Object.PathCompleteness
import Mathlib.Order.WellFounded
import Mathlib.Data.Finset.Card

/-!
# Termination of the import

Which entries an import comes to depends on the disk and on what its buffers held, and not on the
objects that it makes. So termination is a matter of a machine whose state is the number of blocks
that were handed out.

- `Task.control`: that machine.
- `Task.Endless`: a directory inside itself, and an entry for one of the dots without a size.
- `Task.Inside`: accesses that stay within the blocks, or come behind a null pointer or a division by
  zero, at which the processor stops the kernel.
- `mount_settles_iff`: disks that can be mounted.
-/

namespace Cutesugar.Kernel.Fs

open Lib

variable (F : FileSystem)

/-! ## Control -/

/-- A step, on the number of the next block. -/
def Task.control (held : ℕ → ℕ → UInt8) (m : ℕ) : Task → Except Fault (List Task × ℕ)
  | .enter path _ index =>
    if index < 1 then .ok ([], m)
    else do
      let inode ← inodeAt F index
      let type ← readField inode 0 2
      if type &&& 0x4000 = 0 then .ok ([], m + 2)
      else .ok ((List.range 12).map (.block ⟨index :: path, 0⟩ inode), m + 2)
  | .block f inode i => do
    let pointer ← readField inode (40 + 4 * i) 4
    if pointer = 0 then .ok ([], m)
    else do
      let sectors ← divide (blockSize F) F.blockDevice.blockSize
      .ok ((List.range sectors).map (.sector f i pointer), m)
  | .sector f i pointer count => do
    let location ← sectorOf F pointer count
    .ok ([.entry f i count (toInt ((count + 1) * F.blockDevice.blockSize))
      (toInt (count * F.blockDevice.blockSize)) (sectorBuffer F (held m) location)], m + 1)
  | .entry f i count limit index bytes =>
    if index < limit then do
      let kind ← kindOf F bytes
      let size ← readField bytes 4 2
      match kind with
      | .dots => .ok ([.entry f i count limit (toInt (index + size)) (bytes.drop size)], m)
      | .blank => .ok (Task.more f i count limit index bytes size, m)
      | .directory inode _ =>
        .ok (.enter f.path 0 inode :: Task.more f i count limit index bytes size, m + 5)
      | .file _ _ => .ok (Task.more f i count limit index bytes size, m + 4)
    else .ok ([], m)

/-- A task without the object that it adds to. -/
def Task.forget : Task → Task
  | .enter path _ index => .enter path 0 index
  | .block f inode i => .block ⟨f.path, 0⟩ inode i
  | .sector f i pointer count => .sector ⟨f.path, 0⟩ i pointer count
  | .entry f i count limit index bytes => .entry ⟨f.path, 0⟩ i count limit index bytes

/-- The directories that a task is part of. -/
def Task.path : Task → List ℕ
  | .enter path _ _ => path
  | .block f _ _ => f.path
  | .sector f _ _ _ => f.path
  | .entry f _ _ _ _ _ => f.path

/-- **Going on forever**: a directory that is part of itself, and an entry for one of the dots that
leads to itself. -/
def Task.Endless : Task → Prop
  | .enter path _ index => index ∈ path
  | .block _ _ _ => False
  | .sector _ _ _ _ => False
  | .entry _ _ _ limit index bytes =>
    index < limit ∧ isDots bytes = .ok true ∧ field bytes 4 2 = 0

variable {F} {fs fuel m m' c : ℕ} {held held' : ℕ → ℕ → UInt8} {s s' : Ext2State} {t t' : Task}
  {new w w' : List Task} {e : Fault} {dirs : List ℕ} {added : ℕ → List ℕ}

theorem map_forget_more (f : Frame) (i count : ℕ) (limit index : ℤ) (bytes : List UInt8)
    (size : ℕ) : (Task.more f i count limit index bytes size).map Task.forget =
      Task.more ⟨f.path, 0⟩ i count limit index bytes size := by
  unfold Task.more
  split_ifs
  · rfl
  · rfl

/-- **Simulation**: the steps of the import are steps of the control. -/
theorem Task.step_control (h : Task.step F fs fuel s t = .ok (new, s')) :
    t.forget.control F s.held s.kernel.mallocs = .ok (new.map Task.forget, s'.kernel.mallocs) := by
  cases t with
  | enter path root index =>
    obtain ⟨⟨object, s₁⟩, hread, hrest⟩ := Libc.bind_eq_ok.mp h
    clear h
    rcases readInode_eq_ok hread with ⟨hnull, rfl, rfl⟩ | ⟨hpos, ⟨inode, hinode, rfl⟩, rfl⟩
    · obtain ⟨rfl, rfl⟩ := Prod.mk.inj (Except.ok.inj hrest)
      exact if_pos hnull
    · obtain ⟨type, htype, h⟩ := Libc.bind_eq_ok.mp hrest
      have hnull : ¬ index < 1 := by omega
      simp only [Task.forget, Task.control, hnull, if_false, hinode, htype, bind, Except.bind]
      split_ifs at h ⊢ with hdir
      · obtain ⟨rfl, rfl⟩ := Prod.mk.inj (Except.ok.inj h)
        rfl
      · obtain ⟨rfl, rfl⟩ := Prod.mk.inj (Except.ok.inj h)
        rw [List.map_map]
        rfl
  | block f inode i =>
    obtain ⟨pointer, hpointer, h⟩ := Libc.bind_eq_ok.mp h
    simp only [Task.forget, Task.control, hpointer, bind, Except.bind]
    split_ifs at h ⊢ with hzero
    · obtain ⟨rfl, rfl⟩ := Prod.mk.inj (Except.ok.inj h)
      rfl
    · obtain ⟨sectors, hsectors, h⟩ := Libc.bind_eq_ok.mp h
      obtain ⟨rfl, rfl⟩ := Prod.mk.inj (Except.ok.inj h)
      rw [List.map_map, hsectors]
      rfl
  | sector f i pointer count =>
    obtain ⟨location, hlocation, h⟩ := Libc.bind_eq_ok.mp h
    obtain ⟨rfl, rfl⟩ := Prod.mk.inj (Except.ok.inj h)
    simp only [Task.forget, Task.control, hlocation, bind, Except.bind]
    rfl
  | entry f i count limit index bytes =>
    rw [Task.step] at h
    rw [Task.forget, Task.control]
    split_ifs at h ⊢ with hlt
    · obtain ⟨kind, hkind, h⟩ := Libc.bind_eq_ok.mp h
      obtain ⟨size, hsize, h⟩ := Libc.bind_eq_ok.mp h
      simp only [hkind, hsize, bind, Except.bind]
      cases kind with
      | blank =>
        obtain ⟨rfl, rfl⟩ := Prod.mk.inj (Except.ok.inj h)
        rw [map_forget_more]
      | dots =>
        obtain ⟨rfl, rfl⟩ := Prod.mk.inj (Except.ok.inj h)
        rfl
      | directory inode name =>
        obtain ⟨⟨dir, s₁⟩, hadd, h⟩ := Libc.bind_eq_ok.mp h
        obtain ⟨rfl, rfl⟩ := Prod.mk.inj (Except.ok.inj h)
        -- the blocks taken are counted on both sides
        rw [List.map_cons, map_forget_more, (addDirectory_creates hadd).mallocs]
        rfl
      | file inode name =>
        obtain ⟨s₁, hadd, h⟩ := Libc.bind_eq_ok.mp h
        obtain ⟨rfl, rfl⟩ := Prod.mk.inj (Except.ok.inj h)
        rw [map_forget_more, (addFile_creates hadd).mallocs]
    · obtain ⟨rfl, rfl⟩ := Prod.mk.inj (Except.ok.inj h)
      rfl

/-- What the control can do is safe. -/
theorem Task.control_safe (h : t.control F held m = .ok (new, m')) : t.Safe F 128 := by
  cases t with
  | enter path root index =>
    rw [Task.control] at h
    split_ifs at h with hnull
    · exact .inl hnull
    · obtain ⟨inode, hinode, h⟩ := Libc.bind_eq_ok.mp h
      obtain ⟨type, htype, -⟩ := Libc.bind_eq_ok.mp h
      exact .inr ((inodeSafe_iff (by decide)).mp ⟨inode, type, hinode, htype⟩)
  | block f inode i =>
    obtain ⟨pointer, hpointer, h⟩ := Libc.bind_eq_ok.mp h
    obtain ⟨hlen, rfl⟩ := readField_eq_ok.mp hpointer
    refine ⟨by omega, fun hzero => ?_⟩
    rw [if_neg hzero] at h
    obtain ⟨sectors, hsectors, -⟩ := Libc.bind_eq_ok.mp h
    exact (divide_eq_ok.mp hsectors).1
  | sector f i pointer count =>
    obtain ⟨location, hlocation, -⟩ := Libc.bind_eq_ok.mp h
    obtain ⟨start, hstart, -⟩ := Libc.bind_eq_ok.mp hlocation
    exact (divide_eq_ok.mp hstart).1
  | entry f i count limit index bytes =>
    intro hlt
    rw [Task.control, if_pos hlt] at h
    obtain ⟨kind, hkind, -⟩ := Libc.bind_eq_ok.mp h
    exact kindOf_isOk_iff.mp ⟨kind, hkind⟩

theorem Task.safe_forget {room : ℕ} : t.forget.Safe F room ↔ t.Safe F room := by
  cases t
  · exact Iff.rfl
  · exact Iff.rfl
  · exact Iff.rfl
  · exact Iff.rfl

/-- A run of the import is a run of the control. -/
theorem does_control {c c' : Agenda Task Ext2State} {visits : List (Task × Ext2State)}
    (h : Does (Task.step F fs fuel) c visits c') :
    Does (Task.control F c.2.held) (c.1.map Task.forget, c.2.kernel.mallocs)
      (visits.map (Prod.map Task.forget fun s => s.kernel.mallocs))
      (c'.1.map Task.forget, c'.2.kernel.mallocs) := by
  refine h.map Task.forget (fun s => s.kernel.mallocs) (J := fun s => s.held = c.2.held)
    (fun t s new s' hheld hstep => ⟨?_, ?_⟩) rfl
  · rw [← hheld]
    exact Task.step_control hstep
  · exact (Task.step_keeps hstep).held.trans hheld

/-- An import that ends is a control that ends. -/
theorem control_halts {root index : ℕ} (hb : Blocks s.kernel) (hroot : root ≠ 0)
    (h : (∃ visits s', Does (Task.step F fs fuel) ([.enter [] root index], s) visits ([], s')) ∨
      ∃ e, e ≠ .stuck ∧ Fails (Task.step F fs fuel) ([.enter [] root index], s) e) :
    Halts (Task.control F s.held) ([.enter [] 0 index], s.kernel.mallocs) := by
  rcases h with ⟨visits, s', hdone⟩ | ⟨e, he, visits, t, rest, s', hdoes, hfail⟩
  · have hdone' := does_control hdone
    exact .inl ⟨_, s'.kernel.mallocs, hdone'⟩
  · have hparent : t.parent ≠ 0 := by
      refine does_parent hb hdoes (fun x hx => ?_) t (List.mem_cons_self ..)
      rw [List.mem_singleton.mp hx]
      exact hroot
    cases hcontrol : t.forget.control F s.held s'.kernel.mallocs with
    | ok result =>
      -- what the control can do is not a fault of the memory
      exact absurd ((Task.safe_forget.mp (Task.control_safe hcontrol)).stuck hparent hfail) he
    | error e' =>
      have hdoes' := does_control hdoes
      exact .inr ⟨e', _, t.forget, rest.map Task.forget, s'.kernel.mallocs, hdoes', hcontrol⟩

/-! ## What the control depends on -/

/-- A task without its place among the directories. -/
def Task.bare : Task → Task
  | .enter _ _ index => .enter [] 0 index
  | .block _ inode i => .block ⟨[], 0⟩ inode i
  | .sector _ i pointer count => .sector ⟨[], 0⟩ i pointer count
  | .entry _ i count limit index bytes => .entry ⟨[], 0⟩ i count limit index bytes

theorem map_bare_more (f : Frame) (i count : ℕ) (limit index : ℤ) (bytes : List UInt8)
    (size : ℕ) : (Task.more f i count limit index bytes size).map Task.bare =
      Task.more ⟨[], 0⟩ i count limit index bytes size := by
  unfold Task.more
  split_ifs
  · rfl
  · rfl

theorem bare_enter {path : List ℕ} {root index : ℕ} (h : t.bare = (Task.enter path root index).bare) :
    ∃ path root, t = .enter path root index := by
  cases t with
  | enter path root index' =>
    obtain rfl : index' = index := (Task.enter.inj h).2.2
    exact ⟨path, root, rfl⟩
  | block => exact absurd h (by simp [Task.bare])
  | sector => exact absurd h (by simp [Task.bare])
  | entry => exact absurd h (by simp [Task.bare])

theorem bare_block {f : Frame} {inode : List UInt8} {i : ℕ} (h : t.bare = (Task.block f inode i).bare) :
    ∃ f', t = .block f' inode i := by
  cases t with
  | block f' inode' i' =>
    obtain ⟨-, rfl, rfl⟩ := Task.block.inj h
    exact ⟨f', rfl⟩
  | enter => exact absurd h (by simp [Task.bare])
  | sector => exact absurd h (by simp [Task.bare])
  | entry => exact absurd h (by simp [Task.bare])

theorem bare_sector {f : Frame} {i pointer count : ℕ}
    (h : t.bare = (Task.sector f i pointer count).bare) : ∃ f', t = .sector f' i pointer count := by
  cases t with
  | sector f' i' pointer' count' =>
    obtain ⟨-, rfl, rfl, rfl⟩ := Task.sector.inj h
    exact ⟨f', rfl⟩
  | enter => exact absurd h (by simp [Task.bare])
  | block => exact absurd h (by simp [Task.bare])
  | entry => exact absurd h (by simp [Task.bare])

theorem bare_entry {f : Frame} {i count : ℕ} {limit index : ℤ} {bytes : List UInt8}
    (h : t.bare = (Task.entry f i count limit index bytes).bare) :
    ∃ f', t = .entry f' i count limit index bytes := by
  cases t with
  | entry f' i' count' limit' index' bytes' =>
    obtain ⟨-, rfl, rfl, rfl, rfl, rfl⟩ := Task.entry.inj h
    exact ⟨f', rfl⟩
  | enter => exact absurd h (by simp [Task.bare])
  | block => exact absurd h (by simp [Task.bare])
  | sector => exact absurd h (by simp [Task.bare])

/-- **What a task consists of**. -/
inductive Part : Task → Task → Prop where
  | block (path : List ℕ) (root index : ℕ) (inode : List UInt8) (i : ℕ) :
      Part (.enter path root index) (.block ⟨index :: path, 0⟩ inode i)
  | sector (f : Frame) (inode : List UInt8) (i pointer count : ℕ) :
      Part (.block f inode i) (.sector f i pointer count)
  | first (f : Frame) (i pointer count : ℕ) (limit index : ℤ) (bytes : List UInt8) :
      Part (.sector f i pointer count) (.entry f i count limit (toInt index) bytes)
  | next (f : Frame) (i count : ℕ) (limit index : ℤ) (bytes : List UInt8) (hlt : index < limit)
      (hlen : 9 ≤ bytes.length) (hdots : field bytes 4 2 = 0 → isDots bytes = .ok true) :
      Part (.entry f i count limit index bytes)
        (.entry f i count limit (toInt (index + field bytes 4 2)) (bytes.drop (field bytes 4 2)))
  | enter (f : Frame) (i count : ℕ) (limit index : ℤ) (bytes : List UInt8) (inode : ℕ)
      (hinode : inode < 2 ^ 32) :
      Part (.entry f i count limit index bytes) (.enter f.path 0 inode)

theorem part_more {f : Frame} {i count : ℕ} {limit index : ℤ} {bytes : List UInt8} {x : Task}
    (hlt : index < limit) (hlen : 9 ≤ bytes.length)
    (hx : x ∈ Task.more f i count limit index bytes (field bytes 4 2)) :
    Part (.entry f i count limit index bytes) x := by
  unfold Task.more at hx
  split_ifs at hx with hzero
  · exact absurd hx List.not_mem_nil
  · rw [List.mem_singleton.mp hx]
    exact .next f i count limit index bytes hlt hlen fun heq => absurd heq hzero

theorem Task.control_parts (h : t.control F held m = .ok (new, m')) : ∀ x ∈ new, Part t x := by
  intro x hx
  cases t with
  | enter path root index =>
    rw [Task.control] at h
    split_ifs at h with hnull
    · obtain ⟨rfl, -⟩ := Prod.mk.inj (Except.ok.inj h)
      exact absurd hx List.not_mem_nil
    · obtain ⟨inode, -, h⟩ := Libc.bind_eq_ok.mp h
      obtain ⟨type, -, h⟩ := Libc.bind_eq_ok.mp h
      split_ifs at h
      · obtain ⟨rfl, -⟩ := Prod.mk.inj (Except.ok.inj h)
        exact absurd hx List.not_mem_nil
      · obtain ⟨rfl, -⟩ := Prod.mk.inj (Except.ok.inj h)
        obtain ⟨i, -, rfl⟩ := List.mem_map.mp hx
        exact .block ..
  | block f inode i =>
    obtain ⟨pointer, -, h⟩ := Libc.bind_eq_ok.mp h
    split_ifs at h
    · obtain ⟨rfl, -⟩ := Prod.mk.inj (Except.ok.inj h)
      exact absurd hx List.not_mem_nil
    · obtain ⟨sectors, -, h⟩ := Libc.bind_eq_ok.mp h
      obtain ⟨rfl, -⟩ := Prod.mk.inj (Except.ok.inj h)
      obtain ⟨count, -, rfl⟩ := List.mem_map.mp hx
      exact .sector ..
  | sector f i pointer count =>
    obtain ⟨location, -, h⟩ := Libc.bind_eq_ok.mp h
    obtain ⟨rfl, -⟩ := Prod.mk.inj (Except.ok.inj h)
    rw [List.mem_singleton.mp hx]
    exact .first ..
  | entry f i count limit index bytes =>
    rw [Task.control] at h
    split_ifs at h with hlt
    · obtain ⟨kind, hkind, h⟩ := Libc.bind_eq_ok.mp h
      obtain ⟨size, hsize, h⟩ := Libc.bind_eq_ok.mp h
      obtain ⟨-, rfl⟩ := readField_eq_ok.mp hsize
      -- a part of the disk: an entry names its inode in the first four bytes
      obtain ⟨hlen, hspec⟩ := kindOf_spec hkind
      cases kind with
      | blank =>
        obtain ⟨rfl, -⟩ := Prod.mk.inj (Except.ok.inj h)
        exact part_more hlt hlen hx
      | dots =>
        obtain ⟨rfl, -⟩ := Prod.mk.inj (Except.ok.inj h)
        rw [List.mem_singleton.mp hx]
        exact .next f i count limit index bytes hlt hlen fun _ => hspec
      | directory inode name =>
        obtain ⟨rfl, -⟩ := Prod.mk.inj (Except.ok.inj h)
        rcases List.mem_cons.mp hx with rfl | hx
        · obtain ⟨-, -, rfl, -⟩ := hspec
          exact .enter f i count limit index bytes _ (field_lt bytes 0 4)
        · exact part_more hlt hlen hx
      | file inode name =>
        obtain ⟨rfl, -⟩ := Prod.mk.inj (Except.ok.inj h)
        exact part_more hlt hlen hx
    · obtain ⟨rfl, -⟩ := Prod.mk.inj (Except.ok.inj h)
      exact absurd hx List.not_mem_nil

/-- **A step elsewhere**: what the blocks to come hold is all that matters. -/
theorem Task.control_shift (h : t.control F held m = .ok (new, m')) :
    m ≤ m' ∧ m' ≤ m + 5 ∧ ∀ (t' : Task) (c : ℕ) (held' : ℕ → ℕ → UInt8), t'.bare = t.bare →
      (∀ i, m ≤ i → i < m' → held' (i + c) = held i) →
      ∃ new', t'.control F held' (m + c) = .ok (new', m' + c) ∧
        new'.map Task.bare = new.map Task.bare := by
  cases t with
  | enter path root index =>
    rw [Task.control] at h
    split_ifs at h with hnull
    · obtain ⟨rfl, rfl⟩ := Prod.mk.inj (Except.ok.inj h)
      refine ⟨le_rfl, Nat.le_add_right .., fun t' c held' ht _ => ?_⟩
      obtain ⟨path', root', rfl⟩ := bare_enter ht
      exact ⟨[], if_pos hnull, rfl⟩
    · obtain ⟨inode, hinode, h⟩ := Libc.bind_eq_ok.mp h
      obtain ⟨type, htype, h⟩ := Libc.bind_eq_ok.mp h
      split_ifs at h with hdir
      · obtain ⟨rfl, rfl⟩ := Prod.mk.inj (Except.ok.inj h)
        refine ⟨Nat.le_add_right .., by omega, fun t' c held' ht _ => ?_⟩
        obtain ⟨path', root', rfl⟩ := bare_enter ht
        refine ⟨[], ?_, rfl⟩
        simp only [Task.control, hnull, if_false, hinode, htype, hdir, if_true, bind, Except.bind,
          Nat.add_right_comm]
      · obtain ⟨rfl, rfl⟩ := Prod.mk.inj (Except.ok.inj h)
        refine ⟨Nat.le_add_right .., by omega, fun t' c held' ht _ => ?_⟩
        obtain ⟨path', root', rfl⟩ := bare_enter ht
        refine ⟨(List.range 12).map (.block ⟨index :: path', 0⟩ inode), ?_, ?_⟩
        · simp only [Task.control, hnull, if_false, hinode, htype, hdir, bind, Except.bind,
            Nat.add_right_comm]
        · rw [List.map_map, List.map_map]
          rfl
  | block f inode i =>
    obtain ⟨pointer, hpointer, h⟩ := Libc.bind_eq_ok.mp h
    split_ifs at h with hzero
    · obtain ⟨rfl, rfl⟩ := Prod.mk.inj (Except.ok.inj h)
      refine ⟨le_rfl, Nat.le_add_right .., fun t' c held' ht _ => ?_⟩
      obtain ⟨f', rfl⟩ := bare_block ht
      refine ⟨[], ?_, rfl⟩
      simp only [Task.control, hpointer, hzero, if_true, bind, Except.bind]
    · obtain ⟨sectors, hsectors, h⟩ := Libc.bind_eq_ok.mp h
      obtain ⟨rfl, rfl⟩ := Prod.mk.inj (Except.ok.inj h)
      refine ⟨le_rfl, Nat.le_add_right .., fun t' c held' ht _ => ?_⟩
      obtain ⟨f', rfl⟩ := bare_block ht
      refine ⟨(List.range sectors).map (.sector f' i pointer), ?_, ?_⟩
      · simp only [Task.control, hpointer, hzero, if_false, hsectors, bind, Except.bind]
      · rw [List.map_map, List.map_map]
        rfl
  | sector f i pointer count =>
    obtain ⟨location, hlocation, h⟩ := Libc.bind_eq_ok.mp h
    obtain ⟨rfl, rfl⟩ := Prod.mk.inj (Except.ok.inj h)
    refine ⟨Nat.le_succ _, by omega, fun t' c held' ht hheld => ?_⟩
    obtain ⟨f', rfl⟩ := bare_sector ht
    -- the one step that looks at the heap: behind the sector the buffer holds what the block held
    have hbuffer : held' (m + c) = held m := hheld m le_rfl (Nat.lt_succ_self m)
    refine ⟨[.entry f' i count (toInt ((count + 1) * F.blockDevice.blockSize))
      (toInt (count * F.blockDevice.blockSize)) (sectorBuffer F (held m) location)], ?_, rfl⟩
    simp only [Task.control, hlocation, hbuffer, bind, Except.bind, Nat.add_right_comm]
  | entry f i count limit index bytes =>
    rw [Task.control] at h
    split_ifs at h with hlt
    · obtain ⟨kind, hkind, h⟩ := Libc.bind_eq_ok.mp h
      obtain ⟨size, hsize, h⟩ := Libc.bind_eq_ok.mp h
      cases kind with
      | blank =>
        obtain ⟨rfl, rfl⟩ := Prod.mk.inj (Except.ok.inj h)
        refine ⟨le_rfl, Nat.le_add_right .., fun t' c held' ht _ => ?_⟩
        obtain ⟨f', rfl⟩ := bare_entry ht
        refine ⟨Task.more f' i count limit index bytes size, ?_, ?_⟩
        · simp only [Task.control, hlt, if_true, hkind, hsize, bind, Except.bind]
        · rw [map_bare_more, map_bare_more]
      | dots =>
        obtain ⟨rfl, rfl⟩ := Prod.mk.inj (Except.ok.inj h)
        refine ⟨le_rfl, Nat.le_add_right .., fun t' c held' ht _ => ?_⟩
        obtain ⟨f', rfl⟩ := bare_entry ht
        refine ⟨[.entry f' i count limit (toInt (index + size)) (bytes.drop size)], ?_, rfl⟩
        simp only [Task.control, hlt, if_true, hkind, hsize, bind, Except.bind]
      | directory inode name =>
        obtain ⟨rfl, rfl⟩ := Prod.mk.inj (Except.ok.inj h)
        refine ⟨Nat.le_add_right .., le_rfl, fun t' c held' ht _ => ?_⟩
        obtain ⟨f', rfl⟩ := bare_entry ht
        refine ⟨.enter f'.path 0 inode :: Task.more f' i count limit index bytes size, ?_, ?_⟩
        · simp only [Task.control, hlt, if_true, hkind, hsize, bind, Except.bind,
            Nat.add_right_comm]
        · rw [List.map_cons, List.map_cons, map_bare_more, map_bare_more]
          rfl
      | file inode name =>
        obtain ⟨rfl, rfl⟩ := Prod.mk.inj (Except.ok.inj h)
        refine ⟨Nat.le_add_right .., by omega, fun t' c held' ht _ => ?_⟩
        obtain ⟨f', rfl⟩ := bare_entry ht
        refine ⟨Task.more f' i count limit index bytes size, ?_, ?_⟩
        · simp only [Task.control, hlt, if_true, hkind, hsize, bind, Except.bind,
            Nat.add_right_comm]
        · rw [map_bare_more, map_bare_more]
    · obtain ⟨rfl, rfl⟩ := Prod.mk.inj (Except.ok.inj h)
      refine ⟨le_rfl, Nat.le_add_right .., fun t' c held' ht _ => ?_⟩
      obtain ⟨f', rfl⟩ := bare_entry ht
      exact ⟨[], if_neg hlt, rfl⟩

/-- **A run elsewhere**. -/
theorem does_shift {d d' : Agenda Task ℕ} {visits : List (Task × ℕ)}
    (h : Does (Task.control F held) d visits d') :
    d.2 ≤ d'.2 ∧ d'.2 ≤ d.2 + 5 * visits.length ∧
      ∀ (x : List Task) (c : ℕ) (held' : ℕ → ℕ → UInt8), x.map Task.bare = d.1.map Task.bare →
        (∀ i, d.2 ≤ i → i < d'.2 → held' (i + c) = held i) →
        ∃ visits' x', Does (Task.control F held') (x, d.2 + c) visits' (x', d'.2 + c) ∧
          x'.map Task.bare = d'.1.map Task.bare ∧ visits'.length = visits.length := by
  induction h with
  | rest d =>
    exact ⟨le_rfl, le_rfl, fun x c held' hx _ => ⟨[], x, .rest _, hx, rfl⟩⟩
  | @task t m m₁ new rest visits d' hstep _ ih =>
    obtain ⟨hle, hle', hshift⟩ := Task.control_shift hstep
    obtain ⟨hle₁, hle₁', hrest⟩ := ih
    dsimp only at hle₁ hle₁' hrest ⊢
    refine ⟨hle.trans hle₁, ?_, fun x c held' hx hheld => ?_⟩
    · rw [List.length_cons]
      omega
    · rw [List.map_cons] at hx
      obtain ⟨t', rest', rfl, ht, hrest'⟩ := List.map_eq_cons_iff.mp hx
      obtain ⟨new', hstep', hnew⟩ := hshift t' c held' ht fun i hi hi' => hheld i hi (by omega)
      obtain ⟨visits', x', hdoes, hx', hlen⟩ := hrest (new' ++ rest') c held'
        (by rw [List.map_append, List.map_append, hnew, hrest'])
        fun i hi hi' => hheld i (by omega) hi'
      exact ⟨_, x', .task hstep' hdoes, hx', by rw [List.length_cons, List.length_cons, hlen]⟩

/-! ## Directories inside themselves -/

/-- New tasks are part of the directories that the task is part of, and of the one it enters. -/
theorem Task.control_path (h : t.control F held m = .ok (new, m')) :
    ∀ x ∈ new, x.path = t.path ∨
      ∃ path root index, t = .enter path root index ∧ x.path = index :: path := by
  intro x hx
  cases Task.control_parts h x hx with
  | block path root index inode i => exact .inr ⟨path, root, index, rfl, rfl⟩
  | sector => exact .inl rfl
  | first => exact .inl rfl
  | next => exact .inl rfl
  | enter => exact .inl rfl

/-- **Where a directory was entered**: a task that is part of a directory is left from the run of
the task that entered it. -/
theorem entered_before {d : Agenda Task ℕ} {visits : List (Task × ℕ)} {start : Task}
    (hstart : start.path = []) (h : Does (Task.control F held) ([start], m) visits d)
    {pre post : List Task} (hd : d.1 = pre ++ t :: post) {a : ℕ} (ha : a ∈ t.path) :
    ∃ m₁ path root w rest u u', Does (Task.control F held) ([start], m) u
        (.enter path root a :: rest, m₁) ∧
      u' ≠ [] ∧ Does (Task.control F held) ([.enter path root a], m₁) u' (w, d.2) ∧
      d.1 = w ++ rest ∧ pre.length < w.length := by
  induction visits using List.reverseRecOn generalizing d t pre post with
  | nil =>
    cases h
    have hmem : t ∈ [start] := by
      rw [show [start] = pre ++ t :: post from hd]
      exact List.mem_append_right _ (List.mem_cons_self ..)
    rw [List.mem_singleton.mp hmem, hstart] at ha
    exact absurd ha List.not_mem_nil
  | append_singleton visits p ih =>
    obtain ⟨⟨work, m'⟩, hfirst, hlast⟩ := h.split
    cases hlast with
    | @task t₀ _ m₂ new rest₀ _ _ hstep hgo =>
      obtain rfl := hgo.eq_of_nil
      -- tasks that were there before the step
      have hold (pre₀ : List Task) (hsplit : rest₀ = pre₀ ++ t :: post)
          (hlen : pre.length ≤ new.length + pre₀.length) :
          ∃ m₁ path root w rest u u', Does (Task.control F held) ([start], m) u
            (.enter path root a :: rest, m₁) ∧
          u' ≠ [] ∧ Does (Task.control F held) ([.enter path root a], m₁) u' (w, m₂) ∧
          new ++ rest₀ = w ++ rest ∧ pre.length < w.length := by
        have hsplit' : t₀ :: rest₀ = (t₀ :: pre₀) ++ t :: post := congrArg (List.cons t₀) hsplit
        obtain ⟨m₁, path, root, w, rest, u, u', hu, hne, hu', hw, hshort⟩ := ih hfirst hsplit' ha
        cases w with
        | nil => exact absurd hshort (Nat.not_lt_zero _)
        | cons y w =>
          obtain ⟨rfl, rfl⟩ := List.cons.inj hw
          refine ⟨m₁, path, root, new ++ w, rest, u, u' ++ [(t₀, m')], hu, by simp, ?_,
            (List.append_assoc ..).symm, ?_⟩
          · exact hu'.trans (.task hstep (.rest _))
          · rw [List.length_cons, List.length_cons] at hshort
            rw [List.length_append]
            omega
      rcases List.append_eq_append_iff.mp hd with ⟨pre₀, rfl, hsplit⟩ | ⟨tail, rfl, hsplit⟩
      · exact hold pre₀ hsplit (List.length_append ..).le
      · cases tail with
        | nil => exact hold [] hsplit.symm (by simp)
        | cons y tail =>
          -- tasks that the step made
          obtain ⟨rfl, rfl⟩ := List.cons.inj hsplit
          have hmem : t ∈ pre ++ t :: tail := List.mem_append_right _ (List.mem_cons_self ..)
          have hpath : a ∈ t₀.path ∨ ∃ path root, t₀ = .enter path root a := by
            rcases Task.control_path hstep t hmem with hpath | ⟨path, root, index, rfl, hpath⟩
            · exact .inl (hpath ▸ ha)
            · rw [hpath] at ha
              rcases List.mem_cons.mp ha with rfl | ha
              · exact .inr ⟨path, root, rfl⟩
              · exact .inl ha
          rcases hpath with hpath | ⟨path, root, rfl⟩
          · have hsplit' : t₀ :: rest₀ = [] ++ t₀ :: rest₀ := rfl
            obtain ⟨m₁, path, root, w, rest, u, u', hu, hne, hu', hw, hshort⟩ :=
              ih hfirst hsplit' hpath
            cases w with
            | nil => exact absurd hshort (Nat.not_lt_zero _)
            | cons y w =>
              obtain ⟨rfl, rfl⟩ := List.cons.inj hw
              refine ⟨m₁, path, root, (pre ++ t :: tail) ++ w, rest, u, u' ++ [(t₀, m')], hu,
                by simp, hu'.trans (.task hstep (.rest _)), (List.append_assoc ..).symm, ?_⟩
              rw [List.length_append, List.length_append, List.length_cons]
              omega
          · refine ⟨m', path, root, pre ++ t :: tail, rest₀, visits, [(.enter path root a, m')],
              hfirst, by simp, ?_, rfl, ?_⟩
            · have hthis : Does (Task.control F held) ([.enter path root a], m')
                  [(.enter path root a, m')] ((pre ++ t :: tail) ++ [], m₂) :=
                .task hstep (.rest _)
              rw [List.append_nil] at hthis
              exact hthis
            · rw [List.length_append, List.length_cons]
              omega

/-- **A directory inside itself**: with blocks that hold the same things again and again the
directory is entered again and again. -/
theorem exists_not_halts {start : Task} (hstart : start.path = []) {visits : List (Task × ℕ)}
    {path : List ℕ} {root a : ℕ} {rest : List Task}
    (h : Does (Task.control F held) ([start], m) visits (.enter path root a :: rest, m'))
    (ha : a ∈ path) : ∃ held', ¬ Halts (Task.control F held') ([start], m) := by
  have hfirst : Task.enter path root a :: rest = [] ++ Task.enter path root a :: rest := rfl
  obtain ⟨m₁, path₁, root₁, w, rest₁, u, u', hu, hne, hu', hw, hlen⟩ :=
    entered_before hstart h hfirst ha
  cases w with
  | nil => exact absurd hlen (Nat.not_lt_zero _)
  | cons y w =>
    obtain ⟨rfl, rfl⟩ := List.cons.inj hw
    obtain ⟨hle, -, hshift⟩ := does_shift hu'
    obtain ⟨hle₁, -, hbefore⟩ := does_shift hu
    dsimp only at hle hle₁ hshift hbefore
    let period := m' - m₁
    refine ⟨fun i => if i < m₁ then held i else held (m₁ + (i - m₁) % period), ?_⟩
    intro hhalts
    -- up to the first visit nothing is different
    obtain ⟨v, x, hv, hx, -⟩ := hbefore [start] 0 (fun i => if i < m₁ then held i
      else held (m₁ + (i - m₁) % period)) rfl fun i _ hi => if_pos hi
    rw [List.map_cons] at hx
    obtain ⟨t, x, rfl, ht, -⟩ := List.map_eq_cons_iff.mp hx
    obtain ⟨path₂, root₂, rfl⟩ := bare_enter ht
    refine absurd (hhalts.after hv) ?_
    apply not_halts_of_forever (P := fun d : Agenda Task ℕ =>
      ∃ k path root rest, d = (.enter path root a :: rest, m₁ + k * period))
    · exact ⟨0, path₂, root₂, x, by rw [Nat.zero_mul]⟩
    · rintro d ⟨k, path, root, rest, rfl⟩
      obtain ⟨v', x', hv', hx', hlen'⟩ := hshift [.enter path root a] (k * period) (fun i =>
        if i < m₁ then held i else held (m₁ + (i - m₁) % period)) rfl fun i hi hi' => by
          have hmod : (i + k * period - m₁) % period = i - m₁ := by
            rw [show i + k * period - m₁ = (i - m₁) + k * period by omega, Nat.add_mul_mod_self_right]
            exact Nat.mod_eq_of_lt (by omega)
          rw [if_neg (by omega), hmod, Nat.add_sub_cancel' hi]
      rw [List.map_cons] at hx'
      obtain ⟨t, x', rfl, ht, -⟩ := List.map_eq_cons_iff.mp hx'
      obtain ⟨path', root', rfl⟩ := bare_enter ht
      refine ⟨v', _, ?_, hv'.frame rest, k + 1, path', root', x' ++ rest, ?_⟩
      · rintro rfl
        exact hne (List.eq_nil_of_length_eq_zero hlen'.symm)
      · have hperiod : m' + k * period = m₁ + (k + 1) * period := by
          rw [Nat.succ_mul]
          omega
        rw [hperiod]
        rfl

/-! ## Dots without a size -/

/-- What the numbers in tasks are: inode numbers of 32 bits, and values of type `int`. -/
def Task.Sized : Task → Prop
  | .enter _ _ index => index < 2 ^ 32
  | .block _ _ _ => True
  | .sector _ _ _ _ => True
  | .entry _ _ _ _ index _ => toInt index = index

theorem toInt_toInt (x : ℤ) : toInt (toInt x) = toInt x := Int.bmod_bmod

theorem Task.control_sized (h : t.control F held m = .ok (new, m')) : ∀ x ∈ new, x.Sized := by
  intro x hx
  cases Task.control_parts h x hx with
  | block => trivial
  | sector => trivial
  | first => exact toInt_toInt _
  | next => exact toInt_toInt _
  | enter _ _ _ _ _ _ inode hinode => exact hinode

theorem does_sized {d d' : Agenda Task ℕ} {visits : List (Task × ℕ)}
    (h : Does (Task.control F held) d visits d') (hd : ∀ t ∈ d.1, t.Sized) :
    (∀ t ∈ d'.1, t.Sized) ∧ ∀ p ∈ visits, p.1.Sized := by
  obtain ⟨hend, -, hvisits⟩ := h.invariant (I := Task.Sized) (J := fun _ => True)
    (fun t m new m' _ _ _ hstep => ⟨Task.control_sized hstep, trivial⟩) hd trivial
  exact ⟨hend, fun p hp => (hvisits p hp).1⟩

/-- An entry for one of the dots without a size is looked at forever. -/
theorem not_halts_of_dots {f : Frame} {i count : ℕ} {limit index : ℤ} {bytes : List UInt8}
    {rest : List Task} (hlt : index < limit) (hdots : isDots bytes = .ok true)
    (hsize : field bytes 4 2 = 0) (hindex : toInt index = index) :
    ¬ Halts (Task.control F held) (.entry f i count limit index bytes :: rest, m) := by
  have hlen : 9 ≤ bytes.length := (isDots_isOk_iff.mp ⟨_, hdots⟩).1
  have hkind : kindOf F bytes = .ok .dots := by
    rw [kindOf, readField_of_le (by omega), hdots]
    rfl
  have hstep : Task.control F held m (.entry f i count limit index bytes) =
      .ok ([.entry f i count limit index bytes], m) := by
    have hread : readField bytes 4 2 = .ok 0 := hsize ▸ readField_of_le (by omega)
    simp only [Task.control, hlt, if_true, hkind, hread, bind, Except.bind, Nat.cast_zero,
      add_zero, hindex, List.drop_zero]
  apply not_halts_of_forever (P := fun d => d = (.entry f i count limit index bytes :: rest, m)) rfl
  rintro d rfl
  exact ⟨_, _, List.cons_ne_nil _ _, .task hstep (.rest _), rfl⟩

/-! ## Ranks -/

/-- The inode numbers that are not among the directories. -/
noncomputable def remaining (path : List ℕ) : ℕ :=
  ((Finset.range (2 ^ 32)).filter fun d => d ∉ path).card

theorem remaining_lt {path : List ℕ} {d : ℕ} (hd : d < 2 ^ 32) (hpath : d ∉ path) :
    remaining (d :: path) < remaining path := by
  apply Finset.card_lt_card
  refine Finset.ssubset_iff_of_subset ?_ |>.mpr ⟨d, ?_, ?_⟩
  · intro x hx
    obtain ⟨hx, hx'⟩ := Finset.mem_filter.mp hx
    exact Finset.mem_filter.mpr ⟨hx, fun hmem => hx' (List.mem_cons_of_mem _ hmem)⟩
  · exact Finset.mem_filter.mpr ⟨Finset.mem_range.mpr hd, hpath⟩
  · exact fun hmem => (Finset.mem_filter.mp hmem).2 (List.mem_cons_self ..)

/-- How much there is left to do: directories that can still be entered, and then the place in the
directory. -/
noncomputable def Task.rank : Task → ℕ × ℕ × ℕ
  | .enter path _ _ => (remaining path, 0, 0)
  | .entry f _ _ _ _ bytes => (remaining f.path, 1, bytes.length)
  | .sector f _ _ _ => (remaining f.path, 2, 0)
  | .block f _ _ => (remaining f.path, 3, 0)

/-- The order of ranks. -/
def Before (x y : ℕ × ℕ × ℕ) : Prop := Prod.Lex (· < ·) (Prod.Lex (· < ·) (· < ·)) x y

theorem before_wellFounded : WellFounded Before :=
  WellFounded.prod_lex Nat.lt_wfRel.wf (WellFounded.prod_lex Nat.lt_wfRel.wf Nat.lt_wfRel.wf)

/-- **Smaller tasks**: a task consists of tasks of smaller rank unless it goes on forever. -/
theorem Task.control_rank (h : t.control F held m = .ok (new, m')) (hsized : t.Sized)
    (hends : ¬ t.Endless) : ∀ x ∈ new, Before x.rank t.rank := by
  intro x hx
  cases Task.control_parts h x hx with
  | block path root index inode i => exact .left _ _ (remaining_lt hsized hends)
  | sector => exact .right _ (.left _ _ (by decide))
  | first => exact .right _ (.left _ _ (by decide))
  | next f i count limit index bytes hlt hlen hdots =>
    have hsize : field bytes 4 2 ≠ 0 := fun hzero => hends ⟨hlt, hdots hzero, hzero⟩
    refine .right _ (.right _ ?_)
    rw [List.length_drop]
    omega
  | enter => exact .right _ (.left _ _ (by decide))

/-- **Halting**: a control that never comes to a task that goes on forever halts. -/
theorem halts_of_not_endless {start : Task} (hsized : start.Sized)
    (h : ∀ visits t rest m', Does (Task.control F held) ([start], m) visits (t :: rest, m') →
      ¬ t.Endless) : Halts (Task.control F held) ([start], m) := by
  have hstart : ∀ t ∈ [start], t.Sized := fun t ht => List.mem_singleton.mp ht ▸ hsized
  refine halts_of_rank (r := fun x t => Before x.rank t.rank) (InvImage.wf Task.rank
    before_wellFounded) (G := fun p => p.1.Sized ∧ ¬ p.1.Endless)
    (fun t m new m' hG hstep => Task.control_rank hstep hG.1 hG.2) fun v d hv p hp => ⟨?_, ?_⟩
  · exact (does_sized hv hstart).2 p hp
  · obtain ⟨u, x, rest, new, m', hu, -, -⟩ := hv.of_mem hp
    exact h u p.1 rest p.2 hu

/-! ## Lists of the kernel -/

theorem addDirectory_some {root : ℕ} (h : CleanDirs s.kernel dirs added) (hroot : root ∈ dirs)
    (hroot0 : root ≠ 0) (hfuel : s.kernel.mallocs + 2 ≤ fuel) (name : List.Vector UInt8 32) :
    ∃ r, addDirectory fuel s root name = .ok r := by
  let old := s.kernel.objects (s.kernel.blocks s.kernel.mallocs)
  have hplant := h.plant (X := ⟨⟨copyName old.header.name name, 1⟩, old.headerList⟩)
  obtain ⟨k, hfirst⟩ := hplant.addChild_some (o := s.kernel.blocks s.kernel.mallocs) hroot hroot0
    (show s.kernel.mallocs + 1 ≤ fuel by omega)
  have hmallocs : k.mallocs = s.kernel.mallocs + 2 := (directoryAddChild_rest hfirst).2.1
  obtain ⟨k', hsecond⟩ := (hplant.addChild hroot hfirst).addChild_some
    (o := s.kernel.blocks s.kernel.mallocs) hroot hroot0 (hmallocs.le.trans hfuel)
  have hcreate : createDirectory fuel s.kernel root name =
      some (s.kernel.blocks s.kernel.mallocs, k) := by
    unfold createDirectory
    exact congrArg (Option.bind · _) hfirst
  unfold addDirectory
  rw [hcreate]
  simp only [orFault, hsecond, bind, Except.bind]
  exact ⟨_, rfl⟩

theorem addFile_some {root : ℕ} {name : List UInt8} (h : CleanDirs s.kernel dirs added)
    (hroot : root ∈ dirs) (hroot0 : root ≠ 0) (hfuel : s.kernel.mallocs + 1 ≤ fuel)
    (hname : name.length ≤ 128) (fs inode : ℕ) :
    ∃ s', addFile fuel fs s root inode name = .ok s' := by
  let old := s.kernel.objects (s.kernel.blocks s.kernel.mallocs)
  have hplant := h.plant (X := ⟨copyHeader old.header name, inode⟩)
  obtain ⟨k, hadd⟩ := hplant.addChild_some (o := s.kernel.blocks s.kernel.mallocs) hroot hroot0
    (show s.kernel.mallocs + 1 ≤ fuel from hfuel)
  simp only [addFile, if_neg (Nat.not_lt_of_le hname)]
  exact ⟨_, Libc.bind_eq_ok.mpr ⟨k, orFault_eq_ok.mpr hadd, rfl⟩⟩

/-- With a bound as large as the number of blocks no list is in the way. -/
theorem Task.step_ne_stuck (h : CleanDirs s.kernel dirs added) (ht : t.parent ∈ dirs)
    (ht0 : t.parent ≠ 0) (hfuel : s.kernel.mallocs + 5 ≤ fuel) :
    Task.step F fs fuel s t ≠ .error .stuck := by
  cases t with
  | enter path root index =>
    have hread : readInode F s index ≠ .error .stuck := by
      unfold readInode
      split_ifs
      · simp
      · exact bind_ne_stuck inodeAt_ne_stuck fun inode _ => by simp
    refine bind_ne_stuck hread fun r _ => ?_
    obtain ⟨object, s₁⟩ := r
    cases object with
    | none => simp
    | some inode =>
      refine bind_ne_stuck (readField_ne_stuck 0) fun type _ => ?_
      split_ifs
      · simp
      · simp
  | block f inode i =>
    refine bind_ne_stuck (readField_ne_stuck _) fun pointer _ => ?_
    split_ifs
    · simp
    · exact bind_ne_stuck divide_ne_stuck fun sectors _ => by simp
  | sector f i pointer count =>
    have hsector : sectorOf F pointer count ≠ .error .stuck :=
      bind_ne_stuck divide_ne_stuck fun location _ => by simp
    exact bind_ne_stuck hsector fun location _ => by simp
  | entry f i count limit index bytes =>
    rw [Task.step]
    split_ifs
    · refine bind_ne_stuck kindOf_ne_stuck fun kind hkind => ?_
      refine bind_ne_stuck (readField_ne_stuck 4) fun size _ => ?_
      cases kind with
      | blank => simp
      | dots => simp
      | directory inode name =>
        -- the walk over the header list has as many rounds as there are blocks
        obtain ⟨added', hadd⟩ := addDirectory_some (s := s.skip 2) (h.skip 2) ht ht0
          (show s.kernel.mallocs + 2 + 2 ≤ fuel by omega) name
        simp only [Task.parent] at hadd
        simp [hadd, bind, Except.bind]
      | file inode name =>
        obtain ⟨-, -, -, -, -, hlen, -⟩ := (kindOf_spec hkind).2
        obtain ⟨s', hadd⟩ := addFile_some (s := s.skip 2) (h.skip 2) ht ht0
          (show s.kernel.mallocs + 2 + 1 ≤ fuel by omega) hlen fs inode
        simp only [Task.parent] at hadd
        simp [hadd, bind, Except.bind]
    · simp

/-- **No list is in the way** of an import whose control makes at most `n` steps. -/
theorem not_fails_stuck {root index n : ℕ} (h : CleanDirs s.kernel dirs added)
    (hroot : root ∈ dirs) (hroot0 : root ≠ 0) (hfuel : s.kernel.mallocs + 5 * n + 5 ≤ fuel)
    (hn : ∀ v d, Does (Task.control F s.held) ([.enter [] 0 index], s.kernel.mallocs) v d →
      v.length ≤ n) :
    ¬ Fails (Task.step F fs fuel) ([.enter [] root index], s) .stuck := by
  rintro ⟨visits, t, rest, s', hdoes, hfail⟩
  have hstart : ∀ x ∈ [Task.enter [] root index], x.parent ∈ dirs ∧ x.parent ≠ 0 := by
    intro x hx
    rw [List.mem_singleton.mp hx]
    exact ⟨hroot, hroot0⟩
  obtain ⟨dirs', added', h', -, hparents, -⟩ := CleanDirs.run hdoes h fun x hx => (hstart x hx).1
  have hne := does_parent h.blocks hdoes (fun x hx => (hstart x hx).2) t (List.mem_cons_self ..)
  have hcontrol := does_control hdoes
  have hlen := hn _ _ hcontrol
  have hmallocs := (does_shift hcontrol).2.1
  rw [List.length_map] at hlen hmallocs
  dsimp only at hmallocs
  have hlarge : s'.kernel.mallocs + 5 ≤ fuel := by omega
  exact Task.step_ne_stuck h' (hparents t (List.mem_cons_self ..)) hne hlarge hfail

/-! ## Faults that stop the kernel -/

/-- The first `n` bytes of an inode are within the buffers, unless a division by zero comes first. -/
def InodeInside (F : FileSystem) (index n : ℕ) : Prop :=
  F.blockDevice.blockSize ≠ 0 → inodesPerGroup F ≠ 0 →
    (index - 1) / inodesPerGroup F < 16 ∧
      (index - 1) % inodesPerGroup F * inodeSize F + n ≤ 0x4000

/-- The accesses at an entry are within the blocks, as far as they are made. -/
structure EntryInside (F : FileSystem) (bytes : List UInt8) : Prop where
  dots : DotsSafe bytes
  inode : isDots bytes = .ok false → field bytes 8 1 ≠ 0 → 1 ≤ field bytes 0 4 →
    InodeInside F (field bytes 0 4) 2
  directory : isDots bytes = .ok false → field bytes 8 1 ≠ 0 → 1 ≤ field bytes 0 4 →
    ∀ object, inodeAt F (field bytes 0 4) = .ok object → field object 0 2 &&& 0x4000 ≠ 0 →
      40 ≤ bytes.length
  file : isDots bytes = .ok false → field bytes 8 1 ≠ 0 → 1 ≤ field bytes 0 4 →
    ∀ object, inodeAt F (field bytes 0 4) = .ok object → field object 0 2 &&& 0x4000 = 0 →
      field bytes 6 1 ≤ 128 ∧ 8 + field bytes 6 1 ≤ bytes.length

/-- **Within the blocks**: a task reads nothing behind a buffer, and copies no name beyond the block of
an object. -/
def Task.Inside (F : FileSystem) : Task → Prop
  | .enter _ _ index => 1 ≤ index → InodeInside F index 2
  | .block _ inode i => 44 + 4 * i ≤ inode.length
  | .sector _ _ _ _ => True
  | .entry _ _ _ limit index bytes => index < limit → EntryInside F bytes

variable {bytes object : List UInt8} {index n : ℕ}

theorem InodeSafe.inside (h : InodeSafe F index n) : InodeInside F index n :=
  fun _ _ => ⟨h.descriptor, h.table⟩

theorem EntrySafe.inside (h : EntrySafe F 128 bytes) : EntryInside F bytes where
  dots := h.dots
  inode hdots hfirst _ := (h.inode hdots hfirst).2.inside
  directory hdots hfirst _ := h.directory hdots hfirst
  file hdots hfirst _ := h.file hdots hfirst

/-- What is safe is within the blocks. -/
theorem Task.Safe.inside (h : t.Safe F 128) : t.Inside F := by
  cases t with
  | enter path root index => exact fun hpos => (h.resolve_left (by omega)).inside
  | block => exact h.1
  | sector => trivial
  | entry => exact fun hlt => (h hlt).inside

theorem divide_eq_error {a b : ℕ} (h : divide a b = .error e) : e = .divide := by
  unfold divide at h
  split_ifs at h
  exact (Except.error.inj h).symm

/-- An inode within the buffers can be read unless a divisor is zero. -/
theorem InodeInside.inodeAt_error (h : InodeInside F index n) (he : inodeAt F index = .error e) : e = .divide := by
  rcases Libc.bind_eq_error.mp he with hplace | ⟨place, hplace, he⟩
  · exact divide_eq_error hplace
  rcases Libc.bind_eq_error.mp he with hgroup | ⟨group, hgroup, he⟩
  · exact divide_eq_error hgroup
  obtain ⟨hdevice, -⟩ := divide_eq_ok.mp hplace
  obtain ⟨hgroups, rfl⟩ := divide_eq_ok.mp hgroup
  obtain ⟨hlt, -⟩ := h hdevice hgroups
  rcases Libc.bind_eq_error.mp he with htable | ⟨table, -, he⟩
  · rw [readField_of_le (by rw [List.length_drop, List.Vector.toList_length]; omega)] at htable
    cases htable
  rcases Libc.bind_eq_error.mp he with hlocation | ⟨location, -, he⟩
  · exact divide_eq_error hlocation
  · cases he

/-- The start of an inode that was found is read. -/
theorem InodeInside.readField_ok (h : InodeInside F index n) (hobject : inodeAt F index = .ok object) :
    readField object 0 n = .ok (field object 0 n) := by
  obtain ⟨hdevice, hgroups, -⟩ := inodeAt_isOk_iff.mp ⟨object, hobject⟩
  apply readField_of_le
  rw [length_inodeAt hobject]
  have := (h hdevice hgroups).2
  omega

/-- **An entry within the blocks** fails at a null inode or at a division by zero only. -/
theorem EntryInside.kindOf_error (h : EntryInside F bytes) (he : kindOf F bytes = .error e) :
    e = .null ∨ e = .divide := by
  obtain ⟨dots, hdots⟩ := isDots_isOk_iff.mpr h.dots
  have hlen : 9 ≤ bytes.length := h.dots.1
  have hfirst : readField bytes 8 1 = .ok (field bytes 8 1) := readField_of_le (by omega)
  have hnumber : readField bytes 0 4 = .ok (field bytes 0 4) := readField_of_le (by omega)
  have hlength : readField bytes 6 1 = .ok (field bytes 6 1) := readField_of_le (by omega)
  simp only [kindOf, hfirst, hdots, hnumber, hlength, bind, Except.bind] at he
  split_ifs at he with htrue hzero
  obtain rfl : dots = false := Bool.eq_false_of_not_eq_true htrue
  unfold entryInode at he
  split_ifs at he with hnull
  · exact .inl (Except.error.inj he).symm
  have hpos : 1 ≤ field bytes 0 4 := by omega
  have hinside := h.inode hdots hzero hpos
  cases hobject : inodeAt F (field bytes 0 4) with
  | error e' =>
    simp only [hobject] at he
    obtain rfl := Except.error.inj he
    exact .inr (hinside.inodeAt_error hobject)
  | ok object =>
    simp only [hobject, hinside.readField_ok hobject] at he
    by_cases hdir : field object 0 2 &&& 0x4000 ≠ 0
    · have hname : readName bytes = .ok _ := dif_pos (h.directory hdots hzero hpos object hobject hdir)
      simp only [if_pos hdir, hname] at he
      cases he
    · obtain ⟨hroom, hle⟩ := h.file hdots hzero hpos object hobject (not_not.mp hdir)
      have hname : readBytes bytes 8 (field bytes 6 1) = .ok ((bytes.drop 8).take (field bytes 6 1)) :=
        if_pos hle
      have hshort : ¬ 128 < ((bytes.drop 8).take (field bytes 6 1)).length := by
        rw [List.length_take]
        omega
      simp only [if_neg hdir, hname, if_neg hshort] at he
      cases he

/-- **A task within the blocks** fails in no other way. -/
theorem Task.control_error (h : t.Inside F) (he : t.control F held m = .error e) :
    e = .null ∨ e = .divide := by
  cases t with
  | enter path root index =>
    rw [Task.control] at he
    split_ifs at he with hnull
    -- where every field lies inside its buffer, only the divisions by the sizes of the disk can fail
    have hinside : InodeInside F index 2 := h (by omega)
    rcases Libc.bind_eq_error.mp he with hinode | ⟨inode, hinode, he⟩
    · exact .inr (hinside.inodeAt_error hinode)
    · rw [hinside.readField_ok hinode] at he
      simp only [bind, Except.bind] at he
      split_ifs at he
  | block f inode i =>
    have hlen : 44 + 4 * i ≤ inode.length := h
    rw [Task.control, readField_of_le (by omega)] at he
    simp only [bind, Except.bind] at he
    split_ifs at he with hzero
    cases hsectors : divide (blockSize F) F.blockDevice.blockSize with
    | error e' =>
      rw [hsectors] at he
      obtain rfl := Except.error.inj he
      exact .inr (divide_eq_error hsectors)
    | ok sectors =>
      rw [hsectors] at he
      cases he
  | sector f i pointer count =>
    rcases Libc.bind_eq_error.mp he with hlocation | ⟨location, -, he⟩
    · rcases Libc.bind_eq_error.mp hlocation with hstart | ⟨start, -, he⟩
      · exact .inr (divide_eq_error hstart)
      · cases he
    · cases he
  | entry f i count limit index bytes =>
    rw [Task.control] at he
    split_ifs at he with hlt
    have hinside := h hlt
    have hlen : 9 ≤ bytes.length := hinside.dots.1
    rcases Libc.bind_eq_error.mp he with hkind | ⟨kind, -, he⟩
    · exact hinside.kindOf_error hkind
    · rw [readField_of_le (by omega)] at he
      simp only [bind, Except.bind] at he
      cases kind with
      | blank => cases he
      | dots => cases he
      | directory => cases he
      | file => cases he

/-- The faults of the import are those of the control, but for the lists of the kernel. -/
theorem Task.step_error (hparent : t.parent ≠ 0) (h : Task.step F fs fuel s t = .error e) (hne : e ≠ .stuck) :
    t.forget.control F s.held s.kernel.mallocs = .error e := by
  cases t with
  | enter path root index =>
    rw [Task.step, readInode] at h
    rw [Task.forget, Task.control]
    split_ifs at h ⊢ with hnull
    · cases h
    · cases hinode : inodeAt F index with
      | error e' =>
        rw [hinode] at h
        exact congrArg Except.error (Except.error.inj h)
      | ok inode =>
        cases htype : readField inode 0 2 with
        | error e' =>
          simp only [hinode, htype, bind, Except.bind] at h ⊢
          exact congrArg Except.error (Except.error.inj h)
        | ok type =>
          simp only [hinode, htype, bind, Except.bind] at h
          split_ifs at h
  | block f inode i =>
    rw [Task.step] at h
    rw [Task.forget, Task.control]
    cases hpointer : readField inode (40 + 4 * i) 4 with
    | error e' =>
      rw [hpointer] at h
      exact congrArg Except.error (Except.error.inj h)
    | ok pointer =>
      simp only [hpointer, bind, Except.bind] at h ⊢
      split_ifs at h ⊢
      cases hsectors : divide (blockSize F) F.blockDevice.blockSize with
      | error e' =>
        rw [hsectors] at h
        exact congrArg Except.error (Except.error.inj h)
      | ok sectors =>
        rw [hsectors] at h
        cases h
  | sector f i pointer count =>
    rcases Libc.bind_eq_error.mp h with hlocation | ⟨location, -, h⟩
    · rw [Task.forget, Task.control, hlocation]
      rfl
    · cases h
  | entry f i count limit index bytes =>
    rw [Task.step] at h
    rw [Task.forget, Task.control]
    split_ifs at h ⊢ with hlt
    rcases Libc.bind_eq_error.mp h with hkind | ⟨kind, hkind, h⟩
    · rw [hkind]
      rfl
    have hlen := (kindOf_spec hkind).1
    have hsize : readField bytes 4 2 = .ok (field bytes 4 2) := readField_of_le (by omega)
    simp only [hsize, bind, Except.bind] at h
    -- what is left to fail is the walk over a header list
    cases kind with
    | blank => cases h
    | dots => cases h
    | directory inode name =>
      rcases Libc.bind_eq_error.mp h with hadd | ⟨added, -, h⟩
      · exact absurd (addDirectory_stuck hparent hadd) hne
      · cases h
    | file inode name =>
      have hname := (kindOf_spec hkind).2.2.2.2.2.2.1
      rcases Libc.bind_eq_error.mp h with hadd | ⟨added, -, h⟩
      · exact absurd (addFile_stuck hparent hname hadd) hne
      · cases h

/-! ## Mounting -/

/-- A call returns, or the processor stops the kernel at a null pointer or a division by zero. -/
def Ended {α : Type} (x : Except Fault α) : Prop :=
  (∃ a, x = .ok a) ∨ x = .error .null ∨ x = .error .divide

/-- Mounting comes to an end, with all bounds that are large enough. -/
def Settles (s : Ext2State) (bd : BlockDevice) : Prop :=
  ∃ n, ∀ fuel rounds depth, n ≤ fuel → n ≤ rounds → n ≤ depth →
    Ended (initializeExt2FilesystemFromBlockDevice fuel rounds depth s bd)

/-- Whatever the blocks of the heap held, every task that mounting a disk with the signature comes to
is one of a kind. -/
def MountMeets (s : Ext2State) (bd : BlockDevice) (G : FileSystem → Task → Prop) : Prop :=
  ∀ F, fileSystemOf bd = .ok F → signature F = 0xEF53 →
    ∀ held visits t rest m, Does (Task.control F held) ([.enter [] 0 2], s.kernel.mallocs + 2) visits
      (t :: rest, m) → G F t

theorem Ended.ne_stuck {α : Type} {x : Except Fault α} (h : Ended x) : x ≠ .error .stuck := by
  rintro rfl
  rcases h with ⟨a, ha⟩ | hnull | hdivide
  · cases ha
  · cases hnull
  · cases hdivide

theorem ended_map {α β : Type} {x : Except Fault α} {g : α → β} (h : Ended x) : Ended (x.map g) := by
  rcases h with ⟨a, rfl⟩ | rfl | rfl
  · exact .inl ⟨g a, rfl⟩
  · exact .inr (.inl rfl)
  · exact .inr (.inr rfl)

theorem ended_of_error {α : Type} {x : Except Fault α} (h : ∀ e, x = .error e → e = .null ∨ e = .divide) :
    Ended x := by
  cases x with
  | ok a => exact .inl ⟨a, rfl⟩
  | error e =>
    rcases h e rfl with rfl | rfl
    · exact .inr (.inl rfl)
    · exact .inr (.inr rfl)

/-- The state in which the import of the root directory starts. -/
abbrev Ext2State.register (s : Ext2State) (F : FileSystem) : Ext2State :=
  { s.skip 2 with
    fileSystems := Function.update s.fileSystems (s.kernel.blocks s.kernel.mallocs) F }

theorem initialize_eq {bd : BlockDevice} {rounds depth root : ℕ} (hF : fileSystemOf bd = .ok F)
    (hsignature : signature F = 0xEF53) (hroot : objGetRootObject fuel s.kernel = some root) :
    initializeExt2FilesystemFromBlockDevice fuel rounds depth s bd =
      (createDirectoryEntry F (s.kernel.blocks s.kernel.mallocs) fuel rounds depth (s.register F)
        root 2).map fun s' => (s.kernel.blocks s.kernel.mallocs, s') := by
  have hroot' : objGetRootObject fuel (s.register F).kernel = some root := hroot
  unfold initializeExt2FilesystemFromBlockDevice
  simp only [hF, hsignature, hroot', Option.elim, bind, Except.bind, ne_eq, not_true, if_false]
  rfl

theorem map_ne_stuck {α β : Type} {x : Except Fault α} {g : α → β} :
    x.map g ≠ .error .stuck ↔ x ≠ .error .stuck := by
  cases x with
  | error e => simp [Except.map]
  | ok a => simp [Except.map]

/-- A directory inside itself keeps the mounting from an end on some heap, and so does an entry for
one of the dots without a size. -/
theorem exists_not_settles (hclean : CleanDirs s.kernel dirs added)
    (hroot0 : s.kernel.rootObject ≠ 0) (hpriv : Privileged s.kernel) {bd : BlockDevice}
    (hF : fileSystemOf bd = .ok F) (hsignature : signature F = 0xEF53) {visits : List (Task × ℕ)}
    {rest : List Task} (hdoes : Does (Task.control F held) ([.enter [] 0 2], s.kernel.mallocs + 2)
      visits (t :: rest, m)) (hendless : t.Endless) :
    ∃ held, ¬ Settles { s with held := held } bd := by
  obtain ⟨fuel₀, hobject⟩ := hpriv.objGetRootObject
  -- a heap on which the control goes on forever
  have hforever : ∃ held', ¬ Halts (Task.control F held') ([.enter [] 0 2],
      s.kernel.mallocs + 2) := by
    cases t with
    | enter path root index => exact exists_not_halts rfl hdoes hendless
    | block => exact hendless.elim
    | sector => exact hendless.elim
    | entry f i count limit index bytes =>
      obtain ⟨hlt, hdots, hsize⟩ := hendless
      have hindex : toInt index = index := by
        refine (does_sized hdoes (fun x hx => ?_)).1 _ (List.mem_cons_self ..)
        rw [List.mem_singleton.mp hx]
        exact (by decide : 2 < 2 ^ 32)
      exact ⟨held, fun hhalts =>
        not_halts_of_dots hlt hdots hsize hindex (hhalts.after hdoes)⟩
  obtain ⟨held', hnot⟩ := hforever
  refine ⟨held', fun ⟨n, hn⟩ => ?_⟩
  have hreturns := (hn (max n fuel₀) n n (le_max_left ..) le_rfl le_rfl).ne_stuck
  rw [initialize_eq (s := { s with held := held' }) hF hsignature (hobject _ (le_max_right ..)),
    map_ne_stuck] at hreturns
  have hblocks : Blocks (({ s with held := held' } : Ext2State).register F).kernel :=
    (hclean.skip 2).blocks
  have hhalts := control_halts hblocks hroot0 (halts_of_ne_stuck hreturns)
  exact hnot hhalts

/-- An import whose tasks stay within the blocks fails at a null pointer or at a division by zero, or runs
out of a bound. -/
theorem import_error {root index rounds depth : ℕ} (hb : Blocks s.kernel) (hroot : root ≠ 0)
    (hinside : ∀ visits t rest m, Does (Task.control F s.held) ([.enter [] 0 index], s.kernel.mallocs) visits
      (t :: rest, m) → t.Inside F) (hne : e ≠ .stuck)
    (h : createDirectoryEntry F fs fuel rounds depth s root index = .error e) : e = .null ∨ e = .divide := by
  obtain ⟨visits, t, rest, s', hdoes, hfail⟩ := (fault_iff_fails hne).mp ⟨rounds, depth, h⟩
  have hparent : t.parent ≠ 0 := by
    refine does_parent hb hdoes (fun x hx => ?_) t (List.mem_cons_self ..)
    rw [List.mem_singleton.mp hx]
    exact hroot
  have hcontrol := does_control hdoes
  have hheld : s'.held = s.held := (does_keeps hdoes).held
  have hstep := Task.step_error hparent hfail hne
  rw [hheld] at hstep
  exact Task.control_error (hinside _ _ _ _ hcontrol) hstep

/-- **Mounting ends** if it stays within the blocks and comes to nothing that goes on forever. -/
theorem settles_of_meets (hclean : CleanDirs s.kernel dirs added) (hroot : s.kernel.rootObject ∈ dirs)
    (hroot0 : s.kernel.rootObject ≠ 0) (hpriv : Privileged s.kernel) {bd : BlockDevice}
    (h : MountMeets s bd fun F t => t.Inside F ∧ ¬ t.Endless) (held : ℕ → ℕ → UInt8) :
    Settles { s with held := held } bd := by
  obtain ⟨fuel₀, hobject⟩ := hpriv.objGetRootObject
  cases hF : fileSystemOf bd with
  | error e =>
    refine ⟨0, fun fuel rounds depth _ _ _ => ended_of_error fun e' he' => ?_⟩
    unfold initializeExt2FilesystemFromBlockDevice at he'
    simp only [hF, bind, Except.bind] at he'
    obtain rfl := Except.error.inj he'
    rcases Libc.bind_eq_error.mp hF with hlocation | ⟨location, -, hF⟩
    · exact .inr (divide_eq_error hlocation)
    · cases hF
  | ok F =>
    by_cases hsignature : signature F = 0xEF53
    · -- the control comes to an end, so the bounds need not be larger
      have hmeets := h F hF hsignature held
      have hhalts : Halts (Task.control F held) ([.enter [] 0 2], s.kernel.mallocs + 2) :=
        halts_of_not_endless (by decide : 2 < 2 ^ 32) fun visits t rest m' hdoes =>
          (hmeets visits t rest m' hdoes).2
      obtain ⟨n, hn⟩ := hhalts.bound
      refine ⟨max fuel₀ (s.kernel.mallocs + 2 + 5 * n + 5), fun fuel rounds depth hfuel hrounds
        hdepth => ?_⟩
      rw [initialize_eq (s := { s with held := held }) hF hsignature
        (hobject _ ((le_max_left ..).trans hfuel))]
      have hlarge : s.kernel.mallocs + 2 + 5 * n + 5 ≤ fuel := (le_max_right ..).trans hfuel
      have hclean' : CleanDirs (({ s with held := held } : Ext2State).register F).kernel dirs
          added := hclean.skip 2
      have hlists : ¬ Fails (Task.step F (s.kernel.blocks s.kernel.mallocs) fuel)
          ([.enter [] s.kernel.rootObject 2], ({ s with held := held } : Ext2State).register F)
          .stuck :=
        not_fails_stuck hclean' hroot hroot0 hlarge hn
      have hshort : ∀ v c, Does (Task.step F (s.kernel.blocks s.kernel.mallocs) fuel)
          ([.enter [] s.kernel.rootObject 2], ({ s with held := held } : Ext2State).register F) v c →
          v.length < n + 1 := by
        intro v c hv
        have hcontrol := does_control hv
        have hlen := hn _ _ hcontrol
        rw [List.length_map] at hlen
        omega
      have hrounds' := (le_max_right ..).trans hrounds
      have hdepth' := (le_max_right ..).trans hdepth
      have hstuck := ne_stuck_of_bound hlists hshort rounds depth (by omega) (by omega)
      refine ended_map (ended_of_error fun e he => ?_)
      refine import_error hclean'.blocks hroot0 (fun visits t rest m hdoes => ?_) ?_ he
      · exact (hmeets visits t rest m hdoes).1
      · rintro rfl
        exact hstuck he
    · refine ⟨0, fun fuel rounds depth _ _ _ => ended_of_error fun e he => ?_⟩
      unfold initializeExt2FilesystemFromBlockDevice at he
      simp only [hF, bind, Except.bind, ne_eq, hsignature, not_false_eq_true, if_true] at he
      cases he

/-- **Disks that can be mounted**: whatever the blocks of the heap held, mounting comes to an end if,
whatever they held, it stays within the blocks, no directory is entered inside itself and no entry for
one of the dots has no size. As long as it stays within the blocks, it comes to an end only so. -/
theorem mount_settles_iff (hclean : CleanDirs s.kernel dirs added)
    (hroot : s.kernel.rootObject ∈ dirs) (hroot0 : s.kernel.rootObject ≠ 0)
    (hpriv : Privileged s.kernel) (bd : BlockDevice) :
    (MountMeets s bd (fun F t => t.Inside F ∧ ¬ t.Endless) → ∀ held, Settles { s with held := held } bd) ∧
    (MountMeets s bd (fun F t => t.Inside F) →
      ((∀ held, Settles { s with held := held } bd) ↔ MountMeets s bd fun _ t => ¬ t.Endless)) := by
  refine ⟨settles_of_meets hclean hroot hroot0 hpriv, fun hinside => ⟨fun hsettles => ?_, fun hends => ?_⟩⟩
  · intro F hF hsignature held visits t rest m hdoes hendless
    obtain ⟨held', hnot⟩ := exists_not_settles hclean hroot0 hpriv hF hsignature hdoes hendless
    exact hnot (hsettles held')
  · apply settles_of_meets hclean hroot hroot0 hpriv
    intro F hF hsignature held visits t rest m hdoes
    exact ⟨hinside F hF hsignature held visits t rest m hdoes,
      hends F hF hsignature held visits t rest m hdoes⟩

/-- The kernel with a root directory that has no entries. -/
def emptyRoot : Ext2State :=
  { bootExt2 with
    kernel := { bootKernel with
      objects := fun _ => ⟨⟨nameField [46] short_dot, 1⟩, 0⟩ } }

theorem emptyRoot_clean : CleanDirs emptyRoot.kernel [0x1000] fun _ => [] where
  blocks := ⟨bootKernel_start.blocks.nonnull, bootKernel_start.blocks.injective⟩
  built := by
    obtain ⟨entries, hbuilt⟩ := (Built.start buildStart_bootKernel).dirs
    exact ⟨entries, hbuilt.mono (fun _ _ => rfl) rfl rfl le_rfl⟩
  clean _ _ := ⟨rfl, rfl⟩

theorem emptyRoot_privileged : Privileged emptyRoot.kernel := ⟨0, by decide⟩

/-! ## A disk with a file -/

theorem isDots_of_first (hlen : 9 ≤ bytes.length) (hfirst : field bytes 8 1 ≠ 46) : isDots bytes = .ok false := by
  obtain ⟨c, rest, hdrop⟩ := List.exists_cons_of_ne_nil (l := bytes.drop 8) fun hnil => by
    have := congrArg List.length hnil
    rw [List.length_drop, List.length_nil] at this
    omega
  have hfield := field_drop bytes 8 0 1
  rw [hdrop] at hfield
  have hc : c ≠ 46 := by
    rintro rfl
    exact hfirst hfield.symm
  rw [isDots_eq, hdrop]
  exact if_pos hc

/-- The tasks that the import of the root directory of `oneEntry` comes to. -/
def Task.OfOneFile : Task → Prop
  | .enter path _ index => path = [] ∧ index = 2
  | .block f inode i => f.path = [2] ∧ i < 12 ∧ ∃ rest, inode = diskInode (oneEntry 0x81) 2 ++ rest
  | .sector _ _ pointer count => pointer = 6 ∧ count < 2
  | .entry _ _ count limit index bytes =>
    limit ≤ index ∨ count < 2 ∧ index = count * 512 ∧ limit = (count + 1) * 512 ∧
      ∃ old, bytes = sectorBuffer (oneEntry 0x81) old (12 + count)

theorem field_sectorBuffer (old : ℕ → UInt8) (location : ℕ) {offset : ℕ} (h : offset + n ≤ 512) :
    field (sectorBuffer F old location) offset n = field (F.blockDevice.read location).toList offset n := by
  apply field_append
  rw [List.Vector.toList_length]
  exact h

theorem length_sectorBuffer (old : ℕ → UInt8) (location : ℕ) : (sectorBuffer F old location).length = 2048 := by
  rw [sectorBuffer, List.length_append, List.Vector.toList_length, List.length_map, List.length_range]

/-- The first sector of the root directory. -/
theorem first_sector (old : ℕ → UInt8) : field (sectorBuffer (oneEntry 0x81) old 12) 0 4 = 3 ∧
    field (sectorBuffer (oneEntry 0x81) old 12) 4 2 = 1024 ∧
    field (sectorBuffer (oneEntry 0x81) old 12) 6 1 = 1 ∧
    field (sectorBuffer (oneEntry 0x81) old 12) 8 1 = 97 := by
  rw [field_sectorBuffer old 12 (by decide), field_sectorBuffer old 12 (by decide),
    field_sectorBuffer old 12 (by decide), field_sectorBuffer old 12 (by decide)]
  decide +kernel

/-- The second one. -/
theorem second_sector (old : ℕ → UInt8) : field (sectorBuffer (oneEntry 0x81) old 13) 4 2 = 0 ∧
    field (sectorBuffer (oneEntry 0x81) old 13) 8 1 = 0 := by
  rw [field_sectorBuffer old 13 (by decide), field_sectorBuffer old 13 (by decide)]
  decide +kernel

/-- The inodes of the disk, as they are read. -/
theorem oneEntry_inode {index : ℕ} (h : index = 2 ∨ index = 3) :
    ∃ rest, inodeAt (oneEntry 0x81) index = .ok (diskInode (oneEntry 0x81) index ++ rest) := by
  have hmem : index ∈ [2, 3] := by
    rcases h with rfl | rfl
    · exact List.mem_cons_self ..
    · exact List.mem_cons_of_mem _ (List.mem_cons_self ..)
  obtain ⟨hpos, hreads⟩ := (oneEntry_fewInodes 0x81 (.inr rfl)).reads index hmem
  exact (readsInode_of hpos hreads).2

/-- The entry of the first sector is a file. -/
theorem oneEntry_kind (old : ℕ → UInt8) {kind : Kind}
    (h : kindOf (oneEntry 0x81) (sectorBuffer (oneEntry 0x81) old 12) = .ok kind) :
    ∃ inode name, kind = .file inode name := by
  obtain ⟨hinode, -, -, hfirst⟩ := first_sector old
  have hdots : isDots (sectorBuffer (oneEntry 0x81) old 12) = .ok false :=
    isDots_of_first (by rw [length_sectorBuffer]; decide) (by rw [hfirst]; decide)
  have hspec := (kindOf_spec h).2
  cases kind with
  | blank =>
    obtain ⟨-, hzero⟩ := hspec
    rw [hfirst] at hzero
    exact absurd hzero (by decide)
  | dots => exact absurd (hdots.symm.trans hspec) (by simp)
  | directory inode name =>
    obtain ⟨-, -, rfl, -, -, object, type, hobject, htype, hbit⟩ := hspec
    obtain ⟨rest, hthree⟩ := oneEntry_inode (.inr rfl)
    rw [hinode, hthree] at hobject
    obtain rfl := Except.ok.inj hobject
    obtain ⟨-, rfl⟩ := readField_eq_ok.mp htype
    rw [field_append (by rw [length_diskInode]; decide)] at hbit
    exact absurd hbit (by decide +kernel)
  | file inode name => exact ⟨inode, name, rfl⟩

theorem Task.OfOneFile.step (h : t.OfOneFile) (hstep : t.control (oneEntry 0x81) held m = .ok (new, m')) :
    ∀ x ∈ new, x.OfOneFile := by
  cases t with
  | enter path root index =>
    obtain ⟨rfl, rfl⟩ := h
    obtain ⟨rest, hinode⟩ := oneEntry_inode (.inl rfl)
    rw [Task.control, if_neg (by decide)] at hstep
    obtain ⟨inode, hread, hstep⟩ := Libc.bind_eq_ok.mp hstep
    obtain rfl := Except.ok.inj (hinode.symm.trans hread)
    obtain ⟨type, -, hstep⟩ := Libc.bind_eq_ok.mp hstep
    intro x hx
    split_ifs at hstep
    · obtain ⟨rfl, -⟩ := Prod.mk.inj (Except.ok.inj hstep)
      cases hx
    · obtain ⟨rfl, -⟩ := Prod.mk.inj (Except.ok.inj hstep)
      obtain ⟨i, hi, rfl⟩ := List.mem_map.mp hx
      exact ⟨rfl, List.mem_range.mp hi, rest, rfl⟩
  | block f inode i =>
    obtain ⟨-, hi, rest, rfl⟩ := h
    obtain ⟨pointer, hpointer, hstep⟩ := Libc.bind_eq_ok.mp hstep
    obtain ⟨-, rfl⟩ := readField_eq_ok.mp hpointer
    rw [field_append (by rw [length_diskInode]; omega)] at hstep
    intro x hx
    split_ifs at hstep with hzero
    · obtain ⟨rfl, -⟩ := Prod.mk.inj (Except.ok.inj hstep)
      cases hx
    · -- the only block is block 6, of two sectors
      have hblocks : ∀ i < 12, field (diskInode (oneEntry 0x81) 2) (40 + 4 * i) 4 = 0 ∨
          field (diskInode (oneEntry 0x81) 2) (40 + 4 * i) 4 = 6 := by decide +kernel
      obtain ⟨sectors, hsectors, hstep⟩ := Libc.bind_eq_ok.mp hstep
      obtain ⟨-, rfl⟩ := divide_eq_ok.mp hsectors
      obtain ⟨rfl, -⟩ := Prod.mk.inj (Except.ok.inj hstep)
      obtain ⟨count, hcount, rfl⟩ := List.mem_map.mp hx
      have htwo : blockSize (oneEntry 0x81) / (oneEntry 0x81).blockDevice.blockSize = 2 := by decide +kernel
      rw [htwo] at hcount
      exact ⟨(hblocks i hi).resolve_left hzero, List.mem_range.mp hcount⟩
  | sector f i pointer count =>
    obtain ⟨rfl, hcount⟩ := h
    obtain ⟨location, hlocation, hstep⟩ := Libc.bind_eq_ok.mp hstep
    obtain ⟨rfl, -⟩ := Prod.mk.inj (Except.ok.inj hstep)
    have hsectors : ∀ count < 2, sectorOf (oneEntry 0x81) 6 count = .ok (12 + count) := by decide +kernel
    obtain rfl := Except.ok.inj ((hsectors count hcount).symm.trans hlocation)
    intro x hx
    rw [List.mem_singleton.mp hx]
    have hdevice : (oneEntry 0x81).blockDevice.blockSize = 512 := rfl
    refine .inr ⟨hcount, ?_, ?_, _, rfl⟩
    · rw [hdevice]
      rcases Nat.le_one_iff_eq_zero_or_eq_one.mp (Nat.le_of_lt_succ hcount) with rfl | rfl <;> rfl
    · rw [hdevice]
      rcases Nat.le_one_iff_eq_zero_or_eq_one.mp (Nat.le_of_lt_succ hcount) with rfl | rfl <;> rfl
  | entry f i count limit index bytes =>
    rw [Task.control] at hstep
    intro x hx
    split_ifs at hstep with hlt
    · obtain ⟨kind, hkind, hstep⟩ := Libc.bind_eq_ok.mp hstep
      obtain ⟨size, hsize, hstep⟩ := Libc.bind_eq_ok.mp hstep
      obtain ⟨-, rfl⟩ := readField_eq_ok.mp hsize
      rcases h with hend | ⟨hcount, rfl, rfl, old, rfl⟩
      · omega
      rcases Nat.le_one_iff_eq_zero_or_eq_one.mp (Nat.le_of_lt_succ hcount) with rfl | rfl
      · -- the file, and behind it the end of the sector
        obtain ⟨inode, name, rfl⟩ := oneEntry_kind old hkind
        obtain ⟨rfl, -⟩ := Prod.mk.inj (Except.ok.inj hstep)
        rw [Nat.add_zero, (first_sector old).2.1] at hx
        obtain rfl := List.mem_singleton.mp hx
        exact .inl (by decide)
      · obtain ⟨hzero, hfirst⟩ := second_sector old
        have hspec := (kindOf_spec hkind).2
        have hblank : kind = .blank := by
          have hdots : isDots (sectorBuffer (oneEntry 0x81) old (12 + 1)) = .ok false :=
            isDots_of_first (by rw [length_sectorBuffer]; decide) (by rw [hfirst]; decide)
          cases kind with
          | blank => rfl
          | dots => exact absurd (hdots.symm.trans hspec) (by simp)
          | directory inode name => exact absurd hfirst hspec.2.1
          | file inode name => exact absurd hfirst hspec.2.1
        subst hblank
        obtain ⟨rfl, -⟩ := Prod.mk.inj (Except.ok.inj hstep)
        rw [hzero] at hx
        cases hx
    · obtain ⟨rfl, -⟩ := Prod.mk.inj (Except.ok.inj hstep)
      cases hx

theorem oneEntry_inodeSafe {index : ℕ} (h : index = 2 ∨ index = 3) : InodeSafe (oneEntry 0x81) index 2 := by
  rcases h with rfl | rfl
  · exact ⟨by decide, by decide +kernel, by decide +kernel, by decide +kernel⟩
  · exact ⟨by decide, by decide +kernel, by decide +kernel, by decide +kernel⟩

/-- What the import comes to is safe, and comes to an end. -/
theorem Task.OfOneFile.safe (h : t.OfOneFile) : t.Safe (oneEntry 0x81) 64 ∧ ¬ t.Endless := by
  cases t with
  | enter path root index =>
    obtain ⟨rfl, rfl⟩ := h
    exact ⟨.inr (oneEntry_inodeSafe (.inl rfl)), List.not_mem_nil⟩
  | block f inode i =>
    obtain ⟨-, hi, rest, rfl⟩ := h
    refine ⟨⟨?_, fun _ => by decide⟩, fun hend => hend⟩
    rw [List.length_append, length_diskInode]
    omega
  | sector f i pointer count => exact ⟨show 512 ≠ 0 by decide, fun hend => hend⟩
  | entry f i count limit index bytes =>
    rcases h with hend | ⟨hcount, -, -, old, rfl⟩
    · exact ⟨fun hlt => absurd hlt (not_lt.mpr hend), fun hendless => absurd hendless.1 (not_lt.mpr hend)⟩
    have hlen := length_sectorBuffer (F := oneEntry 0x81) old (12 + count)
    have hfirst : field (sectorBuffer (oneEntry 0x81) old (12 + count)) 8 1 ≠ 46 := by
      rcases Nat.le_one_iff_eq_zero_or_eq_one.mp (Nat.le_of_lt_succ hcount) with rfl | rfl
      · rw [(first_sector old).2.2.2]
        decide
      · rw [(second_sector old).2]
        decide
    have hdots := isDots_of_first (by rw [hlen]; decide) hfirst
    refine ⟨fun _ => ⟨isDots_isOk_iff.mp ⟨_, hdots⟩, fun _ hname => ?_, fun _ _ _ _ _ => by rw [hlen]; decide,
      fun _ hname _ _ _ => ?_⟩, fun hendless => absurd (hdots.symm.trans hendless.2.1) (by simp)⟩
    · rcases Nat.le_one_iff_eq_zero_or_eq_one.mp (Nat.le_of_lt_succ hcount) with rfl | rfl
      · rw [(first_sector old).1]
        exact ⟨by decide, oneEntry_inodeSafe (.inr rfl)⟩
      · exact absurd (second_sector old).2 hname
    · rcases Nat.le_one_iff_eq_zero_or_eq_one.mp (Nat.le_of_lt_succ hcount) with rfl | rfl
      · rw [(first_sector old).2.2.1, hlen]
        decide
      · exact absurd (second_sector old).2 hname

theorem oneFile_meets {visits : List (Task × ℕ)} {rest : List Task}
    (h : Does (Task.control (oneEntry 0x81) held) ([.enter [] 0 2], m) visits (t :: rest, m')) :
    t.Safe (oneEntry 0x81) 64 ∧ ¬ t.Endless := by
  have hstart : ∀ x ∈ [Task.enter [] 0 2], x.OfOneFile := by
    intro x hx
    rw [List.mem_singleton.mp hx]
    exact ⟨rfl, rfl⟩
  obtain ⟨hall, -⟩ := h.invariant (I := Task.OfOneFile) (J := fun _ => True)
    (fun t m new m' _ ht _ hstep => ⟨ht.step hstep, trivial⟩) hstart trivial
  exact (hall t (List.mem_cons_self ..)).safe

/-- A disk with a file in its root directory is mounted. -/
theorem mount_settles_file : signature (oneEntry 0x81) = 0xEF53 ∧
    ∀ held, Settles { emptyRoot with held := held } (diskWith (twoInodes 0x81) entryOfThree) := by
  refine ⟨by decide, (mount_settles_iff emptyRoot_clean (by decide) (by decide)
    emptyRoot_privileged (diskWith (twoInodes 0x81) entryOfThree)).1 ?_⟩
  intro F hF _ held visits t rest m hdoes
  obtain rfl : oneEntry 0x81 = F := Except.ok.inj hF
  obtain ⟨hsafe, hends⟩ := oneFile_meets hdoes
  exact ⟨(hsafe.mono (by decide)).inside, hends⟩

/-- Its import is safe. -/
theorem import_safe_file : signature (oneEntry 0x81) = 0xEF53 ∧
    (∀ fuel rounds depth e, createDirectoryEntry (oneEntry 0x81) 0 fuel rounds depth emptyRoot 0x1000 2 =
      .error e → e = .stuck) ∧
    ∀ fuel visits t rest s', Does (Task.step (oneEntry 0x81) 0 fuel) ([.enter [] 0x1000 2], emptyRoot) visits
      (t :: rest, s') → ∀ b ∈ builtAt (oneEntry 0x81) (t, s'), b.InField := by
  refine ⟨by decide, (import_safe_iff emptyRoot_clean.blocks (by decide)).mpr
    fun fuel visits t rest s' hdoes => ?_⟩
  have hcontrol := does_control hdoes
  exact Task.safe_forget.mp (oneFile_meets hcontrol).1

/-- The root directory once more, as the entry `a` of itself. -/
def loopEntry : List UInt8 := [2, 0, 0, 0, 0, 4, 1, 2, 97]

instance (t : Task) : Decidable t.Endless :=
  match t with
  | .enter path _ index => inferInstanceAs (Decidable (index ∈ path))
  | .block _ _ _ => inferInstanceAs (Decidable False)
  | .sector _ _ _ _ => inferInstanceAs (Decidable False)
  | .entry _ _ _ limit index bytes =>
    inferInstanceAs (Decidable (index < limit ∧ isDots bytes = .ok true ∧ field bytes 4 2 = 0))

/-- A disk whose root directory is inside itself cannot be mounted. -/
theorem mount_never_settles :
    ∃ held, ¬ Settles { emptyRoot with held := held } (diskWith rootInode loopEntry) := by
  have hloop : ((advance (Task.control (onDisk (diskWith rootInode loopEntry)) fun _ _ => 0) 4
      ([.enter [] 0 2], 2)).toOption.any fun c => c.1.head?.any fun t => t.Endless) = true := by
    decide +kernel
  revert hloop
  cases hrun : advance (Task.control (onDisk (diskWith rootInode loopEntry)) fun _ _ => 0) 4
      ([.enter [] 0 2], 2) with
  | error e => simp [Except.toOption]
  | ok c =>
    obtain ⟨tasks, m⟩ := c
    obtain ⟨visits, hdoes⟩ := does_of_advance hrun
    cases tasks with
    | nil => simp [Except.toOption]
    | cons t rest =>
      intro hendless
      exact exists_not_settles emptyRoot_clean (by decide) emptyRoot_privileged rfl
        (by decide) hdoes (by simpa [Except.toOption] using hendless)

end Cutesugar.Kernel.Fs
