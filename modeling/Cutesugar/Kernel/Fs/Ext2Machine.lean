import Cutesugar.Kernel.Fs.Ext2
import Cutesugar.Lib.Worklist

/-!
# The import as a machine

The activations of `CreateDirectoryEntry` and its loops as tasks: a directory consists of its
blocks, a block of its sectors, a sector of its first entry, and an entry of the directory it
names, if it does, and of the entry behind it.

- `Task.step`: what a task consists of, and what it does.
- `createDirectoryEntry_realized`: the machine does what the function does.
-/

namespace Cutesugar.Kernel.Fs

open Lib

/-- What an entry asks for. -/
inductive Kind where
  | blank
  | dots
  | directory (inode : ℕ) (name : List.Vector UInt8 32)
  | file (inode : ℕ) (name : List UInt8)
  deriving DecidableEq

/-- The directories that are being imported, the innermost first, and the object that entries are
added to. -/
structure Frame where
  path : List ℕ
  root : ℕ

inductive Task where
  | enter (path : List ℕ) (root index : ℕ)
  | block (f : Frame) (inode : List UInt8) (i : ℕ)
  | sector (f : Frame) (i pointer count : ℕ)
  | entry (f : Frame) (i count : ℕ) (limit index : ℤ) (bytes : List UInt8)

variable (F : FileSystem)

/-- The inode that an entry names. -/
def entryInode (inode : ℕ) : Except Fault (List UInt8) :=
  if inode < 1 then .error .null else inodeAt F inode

/-- The branch that is taken at an entry. -/
def kindOf (entry : List UInt8) : Except Fault Kind := do
  let first ← readField entry 8 1
  let dots ← isDots entry
  if dots then .ok .dots
  else if first = 0 then .ok .blank
  else do
    let inode ← readField entry 0 4
    let object ← entryInode F inode
    let type ← readField object 0 2
    if type &&& 0x4000 ≠ 0 then do
      let name ← readName entry
      .ok (.directory inode name)
    else do
      let length ← readField entry 6 1
      let name ← readBytes entry 8 length
      if 128 < name.length then .error .overflow else .ok (.file inode name)

/-- The entry behind one that names something. -/
def Task.more (f : Frame) (i count : ℕ) (limit index : ℤ) (bytes : List UInt8) (size : ℕ) :
    List Task :=
  if size = 0 then [] else [.entry f i count limit (toInt (index + size)) (bytes.drop size)]

def Task.step (fs fuel : ℕ) (s : Ext2State) : Task → Except Fault (List Task × Ext2State)
  | .enter path root index => do
    let (inode, s) ← readInode F s index
    match inode with
    | none => .ok ([], s)
    | some inode => do
      let type ← readField inode 0 2
      if type &&& 0x4000 = 0 then .ok ([], s)
      else .ok ((List.range 12).map (.block ⟨index :: path, root⟩ inode), s)
  | .block f inode i => do
    let pointer ← readField inode (40 + 4 * i) 4
    if pointer = 0 then .ok ([], s)
    else do
      let sectors ← divide (blockSize F) F.blockDevice.blockSize
      .ok ((List.range sectors).map (.sector f i pointer), s)
  | .sector f i pointer count => do
    let location ← sectorOf F pointer count
    .ok ([.entry f i count (toInt ((count + 1) * F.blockDevice.blockSize))
      (toInt (count * F.blockDevice.blockSize))
      (sectorBuffer F (s.held s.kernel.mallocs) location)], s.skip 1)
  | .entry f i count limit index bytes =>
    if index < limit then do
      let kind ← kindOf F bytes
      let size ← readField bytes 4 2
      match kind with
      | .dots => .ok ([.entry f i count limit (toInt (index + size)) (bytes.drop size)], s)
      | .blank => .ok (Task.more f i count limit index bytes size, s)
      | .directory inode name => do
        let (dir, s) ← addDirectory fuel (s.skip 2) f.root name
        .ok (.enter f.path dir inode :: Task.more f i count limit index bytes size, s)
      | .file inode name => do
        let s ← addFile fuel fs (s.skip 2) f.root inode name
        .ok (Task.more f i count limit index bytes size, s)
    else .ok ([], s)

variable {F} {fs fuel rounds depth k : ℕ} {s : Ext2State} {entry bytes : List UInt8} {f : Frame}
  {offset n i count : ℕ} {limit index : ℤ}

/-! ## Reading -/

theorem readField_eq_ok {v : ℕ} : readField bytes offset n = .ok v ↔
    offset + n ≤ bytes.length ∧ field bytes offset n = v := by
  unfold readField
  split_ifs with h
  · exact ⟨fun heq => ⟨h, Except.ok.inj heq⟩, fun heq => congrArg Except.ok heq.2⟩
  · exact iff_of_false (by simp) fun heq => h heq.1

theorem readField_of_le (h : offset + n ≤ bytes.length) :
    readField bytes offset n = .ok (field bytes offset n) := if_pos h

/-- What the branch says about the entry. -/
def Kind.Spec (F : FileSystem) (entry : List UInt8) : Kind → Prop
  | .blank => isDots entry = .ok false ∧ field entry 8 1 = 0
  | .dots => isDots entry = .ok true
  | .directory inode name => isDots entry = .ok false ∧ field entry 8 1 ≠ 0 ∧
      field entry 0 4 = inode ∧ 1 ≤ inode ∧ readName entry = .ok name ∧
      ∃ object type, inodeAt F inode = .ok object ∧ readField object 0 2 = .ok type ∧
        type &&& 0x4000 ≠ 0
  | .file inode name => isDots entry = .ok false ∧ field entry 8 1 ≠ 0 ∧
      field entry 0 4 = inode ∧ 1 ≤ inode ∧ readBytes entry 8 (field entry 6 1) = .ok name ∧
      name.length ≤ 128 ∧
      ∃ object type, inodeAt F inode = .ok object ∧ readField object 0 2 = .ok type ∧
        type &&& 0x4000 = 0

theorem entryInode_eq_ok {inode : ℕ} {object : List UInt8} :
    entryInode F inode = .ok object ↔ 1 ≤ inode ∧ inodeAt F inode = .ok object := by
  unfold entryInode
  split_ifs with h
  · exact iff_of_false (by simp) fun heq => by omega
  · exact (and_iff_right (by omega)).symm

theorem kindOf_spec {kind : Kind} (h : kindOf F entry = .ok kind) :
    9 ≤ entry.length ∧ kind.Spec F entry := by
  obtain ⟨first, hfirst, h⟩ := Libc.bind_eq_ok.mp h
  obtain ⟨hlen, rfl⟩ := readField_eq_ok.mp hfirst
  obtain ⟨dots, hdots, h⟩ := Libc.bind_eq_ok.mp h
  refine ⟨hlen, ?_⟩
  split_ifs at h with htrue hzero
  · obtain rfl := Except.ok.inj h
    exact hdots.trans (congrArg Except.ok htrue)
  · obtain rfl := Except.ok.inj h
    exact ⟨Bool.eq_false_of_not_eq_true htrue ▸ hdots, hzero⟩
  · replace hdots : isDots entry = .ok false := Bool.eq_false_of_not_eq_true htrue ▸ hdots
    obtain ⟨inode, hinode, h⟩ := Libc.bind_eq_ok.mp h
    obtain ⟨-, rfl⟩ := readField_eq_ok.mp hinode
    obtain ⟨object, hobject, h⟩ := Libc.bind_eq_ok.mp h
    obtain ⟨hpos, hobject⟩ := entryInode_eq_ok.mp hobject
    obtain ⟨type, htype, h⟩ := Libc.bind_eq_ok.mp h
    split_ifs at h with hdir
    · obtain ⟨name, hname, h⟩ := Libc.bind_eq_ok.mp h
      obtain rfl := Except.ok.inj h
      exact ⟨hdots, hzero, rfl, hpos, hname, object, type, hobject, htype, hdir⟩
    · obtain ⟨length, hlength, h⟩ := Libc.bind_eq_ok.mp h
      obtain ⟨-, rfl⟩ := readField_eq_ok.mp hlength
      obtain ⟨name, hname, h⟩ := Libc.bind_eq_ok.mp h
      split_ifs at h with hlong
      obtain rfl := Except.ok.inj h
      exact ⟨hdots, hzero, rfl, hpos, hname, by omega, object, type, hobject, htype,
        not_not.mp hdir⟩

/-- What is done at an entry. -/
def Kind.perform (fs fuel : ℕ) (descend : Ext2State → ℕ → ℕ → Except Fault Ext2State)
    (s : Ext2State) (root : ℕ) : Kind → Except Fault Ext2State
  | .blank => .ok s
  | .dots => .ok s
  | .directory inode name => do
    let (dir, s) ← addDirectory fuel (s.skip 2) root name
    descend s dir inode
  | .file inode name => addFile fuel fs (s.skip 2) root inode name

variable {descend : Ext2State → ℕ → ℕ → Except Fault Ext2State} {root : ℕ}

/-- An entry with a name of its own is done as its kind says. -/
theorem importEntry_eq {first : ℕ} (hfirst : readField bytes 8 1 = .ok first) (hzero : first ≠ 0)
    (hdots : isDots bytes = .ok false) :
    importEntry F fs fuel descend s root bytes =
      kindOf F bytes >>= Kind.perform fs fuel descend s root := by
  have hlen := (readField_eq_ok.mp hfirst).1
  have hinode : readField bytes 0 4 = .ok (field bytes 0 4) := readField_of_le (by omega)
  have hlength : readField bytes 6 1 = .ok (field bytes 6 1) := readField_of_le (by omega)
  simp only [importEntry, kindOf, hfirst, hdots, hinode, hlength, hzero, readInode, entryInode,
    bind, Except.bind, if_false, Bool.false_eq_true]
  by_cases hnull : field bytes 0 4 < 1
  · simp only [hnull, if_true, Option.elim]
  simp only [hnull, if_false]
  cases hobject : inodeAt F (field bytes 0 4) with
  | error e => rfl
  | ok object =>
    simp only [Option.elim]
    cases htype : readField object 0 2 with
    | error e => rfl
    | ok type =>
      by_cases hdir : type &&& 0x4000 ≠ 0
      · simp only [hdir, if_true, ne_eq, not_false_eq_true]
        cases hname : readName bytes with
        | error e => rfl
        | ok name => rfl
      · simp only [hdir, if_false]
        cases hname : readBytes bytes 8 (field bytes 6 1) with
        | error e => rfl
        | ok name =>
          by_cases hlong : 128 < name.length
          · simp only [hlong, if_true, addFile]
          · simp only [hlong, if_false]
            rfl

/-- One round of the loop. -/
theorem entriesLoop_succ (hlt : index < limit) :
    entriesLoop (fun s entry => importEntry F fs fuel descend s root entry) limit (rounds + 1) s
      index bytes = (do
    let kind ← kindOf F bytes
    let s ← kind.perform fs fuel descend s root
    let size ← readField bytes 4 2
    if size = 0 ∧ kind ≠ .dots then .ok s
    else
      entriesLoop (fun s entry => importEntry F fs fuel descend s root entry) limit rounds s
        (toInt (index + size)) (bytes.drop size)) := by
  rw [entriesLoop, if_pos hlt]
  generalize entriesLoop (fun s entry => importEntry F fs fuel descend s root entry) limit rounds =
    loop
  cases hfirst : readField bytes 8 1 with
  | error e => simp only [kindOf, hfirst, bind, Except.bind]
  | ok first =>
    cases hdots : isDots bytes with
    | error e => simp only [kindOf, hfirst, hdots, bind, Except.bind]
    | ok dots =>
      cases dots with
      | true => simp [kindOf, hfirst, hdots, Kind.perform, bind, Except.bind]
      | false =>
        by_cases hzero : first = 0
        · simp [kindOf, hfirst, hdots, hzero, Kind.perform, bind, Except.bind]
        · rw [importEntry_eq hfirst hzero hdots]
          simp only [bind, Except.bind, hzero, Bool.false_eq_true, or_self, if_false]
          cases hkind : kindOf F bytes with
          | error e => rfl
          | ok kind =>
            have hne : kind ≠ .dots := by
              rintro rfl
              exact absurd (hdots.symm.trans (kindOf_spec hkind).2) (by simp)
            simp only [hne, not_false_eq_true, and_true, ne_eq]

/-! ## The machine does what the functions do -/

/-- What the recursive call has to satisfy. -/
def Descends (F : FileSystem) (fs fuel k : ℕ)
    (descend : Ext2State → ℕ → ℕ → Except Fault Ext2State) : Prop :=
  ∀ path s root index, Realizes (Task.step F fs fuel) .stuck k [.enter path root index] s
    (descend s root index)

theorem entriesLoop_realized (hd : Descends F fs fuel k descend) (i count : ℕ) :
    Realizes (Task.step F fs fuel) .stuck (min rounds k) [.entry f i count limit index bytes] s
      (entriesLoop (fun s entry => importEntry F fs fuel descend s f.root entry) limit rounds s
        index bytes) := by
  induction rounds generalizing s index bytes with
  | zero =>
    rw [entriesLoop]
    split_ifs with hlt
    · exact Realizes.out.weaken (Nat.min_le_left ..)
    · refine (Realizes.task (k := 0) ?_ Realizes.nil).weaken (by omega)
      exact if_neg hlt
  | succ rounds ih =>
    by_cases hlt : index < limit
    · rw [entriesLoop_succ hlt]
      cases hkind : kindOf F bytes with
      | error e =>
        refine .fail ?_
        simp only [Task.step, hlt, if_true, hkind, bind, Except.bind]
      | ok kind =>
        have hlen := (kindOf_spec hkind).1
        have hsize : readField bytes 4 2 = .ok (field bytes 4 2) := readField_of_le (by omega)
        -- what is left to do at the entry behind
        have hmore (s : Ext2State) : Realizes (Task.step F fs fuel) .stuck (min rounds k)
            (Task.more f i count limit index bytes (field bytes 4 2)) s
            (if field bytes 4 2 = 0 then .ok s
              else entriesLoop (fun s entry => importEntry F fs fuel descend s f.root entry) limit
                rounds s (toInt (index + field bytes 4 2)) (bytes.drop (field bytes 4 2))) := by
          unfold Task.more
          split_ifs
          · exact .nil
          · exact ih
        simp only [bind, Except.bind, hsize]
        cases kind with
        | blank =>
          simp only [Kind.perform, ne_eq, reduceCtorEq, not_false_eq_true, and_true]
          refine (Realizes.task (k := min rounds k) ?_ (hmore s)).weaken (by omega)
          simp only [Task.step, hlt, if_true, hkind, hsize, bind, Except.bind]
        | dots =>
          simp only [Kind.perform, ne_eq, not_true, and_false, if_false]
          refine (Realizes.task (k := min rounds k) ?_ ih).weaken (by omega)
          simp only [Task.step, hlt, if_true, hkind, hsize, bind, Except.bind]
        | directory inode name =>
          simp only [Kind.perform, bind, Except.bind, ne_eq, reduceCtorEq, not_false_eq_true,
            and_true]
          cases hadd : addDirectory fuel (s.skip 2) f.root name with
          | error e =>
            refine .fail ?_
            simp only [Task.step, hlt, if_true, hkind, hsize, hadd, bind, Except.bind]
          | ok added =>
            -- first the directory, then the entry behind
            have hboth := ((hd f.path added.2 added.1 inode).weaken (Nat.min_le_right rounds k)).append
              fun s _ => hmore s
            refine (Realizes.task ?_ hboth).weaken (by omega)
            simp only [Task.step, hlt, if_true, hkind, hsize, hadd, bind, Except.bind,
              List.singleton_append]
        | file inode name =>
          simp only [Kind.perform, ne_eq, reduceCtorEq, not_false_eq_true, and_true]
          cases hadd : addFile fuel fs (s.skip 2) f.root inode name with
          | error e =>
            refine .fail ?_
            simp only [Task.step, hlt, if_true, hkind, hsize, hadd, bind, Except.bind]
          | ok s' =>
            refine (Realizes.task (k := min rounds k) ?_ (hmore s')).weaken (by omega)
            simp only [Task.step, hlt, if_true, hkind, hsize, hadd, bind, Except.bind]
    · rw [entriesLoop, if_neg hlt]
      refine (Realizes.task (k := k) ?_ Realizes.nil).weaken (by omega)
      exact if_neg hlt

theorem importSector_realized (hd : Descends F fs fuel k descend) (i pointer : ℕ) :
    Realizes (Task.step F fs fuel) .stuck (min rounds k) [.sector f i pointer count] s
      (importSector F fs fuel rounds descend f.root pointer s count) := by
  unfold importSector
  cases hlocation : sectorOf F pointer count with
  | error e =>
    refine .fail ?_
    simp only [Task.step, hlocation, bind, Except.bind]
  | ok location =>
    refine (Realizes.task ?_ (entriesLoop_realized hd i count)).weaken (Nat.le_succ _)
    simp only [Task.step, hlocation, bind, Except.bind]

theorem importBlock_realized (hd : Descends F fs fuel k descend) {inode : List UInt8} :
    Realizes (Task.step F fs fuel) .stuck (min rounds k) [.block f inode i] s
      (importBlock F fs fuel rounds descend f.root inode s i) := by
  unfold importBlock
  cases hpointer : readField inode (40 + 4 * i) 4 with
  | error e =>
    refine .fail ?_
    simp only [Task.step, hpointer, bind, Except.bind]
  | ok pointer =>
    simp only [bind, Except.bind]
    split_ifs with hzero
    · refine (Realizes.task (k := min rounds k) ?_ .nil).weaken (Nat.le_succ _)
      simp only [Task.step, hpointer, hzero, if_true, bind, Except.bind]
    · cases hsectors : divide (blockSize F) F.blockDevice.blockSize with
      | error e =>
        refine .fail ?_
        simp only [Task.step, hpointer, hzero, if_false, hsectors, bind, Except.bind]
      | ok sectors =>
        refine (Realizes.task ?_ (Realizes.foldlM fun count _ s =>
          importSector_realized hd i pointer)).weaken (Nat.le_succ _)
        simp only [Task.step, hpointer, hzero, if_false, hsectors, bind, Except.bind]

/-- **The import as a machine**: it does what `CreateDirectoryEntry` does, and where a bound of the
function runs out it goes on for as many steps. -/
theorem createDirectoryEntry_realized (F : FileSystem) (fs fuel rounds depth : ℕ) :
    Descends F fs fuel (min rounds depth) (createDirectoryEntry F fs fuel rounds depth) := by
  induction depth with
  | zero => exact fun path s root index => Realizes.out.weaken (Nat.min_le_right ..)
  | succ depth ih =>
    intro path s root index
    rw [createDirectoryEntry]
    cases hread : readInode F s index with
    | error e =>
      refine .fail ?_
      simp only [Task.step, hread, bind, Except.bind]
    | ok result =>
      obtain ⟨inode, s'⟩ := result
      cases inode with
      | none =>
        refine (Realizes.task (k := min rounds depth) ?_ .nil).weaken (by omega)
        simp only [Task.step, hread, bind, Except.bind]
      | some inode =>
        simp only [bind, Except.bind]
        cases htype : readField inode 0 2 with
        | error e =>
          refine .fail ?_
          simp only [Task.step, hread, htype, bind, Except.bind]
        | ok type =>
          simp only
          split_ifs with hdir
          · refine (Realizes.task (k := min rounds depth) ?_ .nil).weaken (by omega)
            simp only [Task.step, hread, htype, hdir, if_true, bind, Except.bind]
          · have hblocks : Realizes (Task.step F fs fuel) .stuck (min rounds (min rounds depth))
                ((List.range 12).map (Task.block ⟨index :: path, root⟩ inode)) s'
                ((List.range 12).foldlM (importBlock F fs fuel rounds
                  (createDirectoryEntry F fs fuel rounds depth) root inode) s') :=
              Realizes.foldlM fun i _ s => importBlock_realized ih
            refine (Realizes.task ?_ hblocks).weaken (by omega)
            simp only [Task.step, hread, htype, hdir, if_false, bind, Except.bind]

/-- An import that returns is a run of the machine. -/
theorem does_of_ok {root index : ℕ} {s' : Ext2State}
    (h : createDirectoryEntry F fs fuel rounds depth s root index = .ok s') :
    ∃ visits, Does (Task.step F fs fuel) ([.enter [] root index], s) visits ([], s') := by
  have hrun := createDirectoryEntry_realized F fs fuel rounds depth [] s root index
  rw [h] at hrun
  exact hrun

/-- With bounds that are greater than the number of steps the function returns what the machine
ends with. -/
theorem ok_of_does {root index : ℕ} {s' : Ext2State} {visits : List (Task × Ext2State)}
    (h : Does (Task.step F fs fuel) ([.enter [] root index], s) visits ([], s'))
    (hrounds : visits.length < rounds) (hdepth : visits.length < depth) :
    createDirectoryEntry F fs fuel rounds depth s root index = .ok s' := by
  have hrun := createDirectoryEntry_realized F fs fuel rounds depth [] s root index
  revert hrun
  cases createDirectoryEntry F fs fuel rounds depth s root index with
  | ok s'' =>
    rintro ⟨v, hv⟩
    rw [(h.unique hv).2]
  | error e =>
    rintro (hfails | ⟨-, v, c, hv, hlong⟩)
    · exact absurd h hfails.not_done
    · have hle := h.length_le hv
      omega

/-- The faults of the function are those of the machine. -/
theorem fault_iff_fails {root index : ℕ} {e : Fault} (he : e ≠ .stuck) :
    (∃ rounds depth, createDirectoryEntry F fs fuel rounds depth s root index = .error e) ↔
      Fails (Task.step F fs fuel) ([.enter [] root index], s) e := by
  constructor
  · rintro ⟨rounds, depth, h⟩
    have hrun := createDirectoryEntry_realized F fs fuel rounds depth [] s root index
    rw [h] at hrun
    exact hrun.resolve_right fun hstuck => he hstuck.1
  · intro hfails
    obtain ⟨visits, t, rest, s', hdoes, hfail⟩ := hfails
    -- bounds that the machine does not reach
    refine ⟨visits.length + 1, visits.length + 1, ?_⟩
    have hrun := createDirectoryEntry_realized F fs fuel (visits.length + 1) (visits.length + 1) []
      s root index
    have hfails : Fails (Task.step F fs fuel) ([.enter [] root index], s) e :=
      ⟨visits, t, rest, s', hdoes, hfail⟩
    revert hrun
    cases createDirectoryEntry F fs fuel (visits.length + 1) (visits.length + 1) s root index with
    | ok s'' =>
      rintro ⟨v, hv⟩
      exact absurd hv hfails.not_done
    | error e' =>
      rintro (hfails' | ⟨-, v, c, hv, hlong⟩)
      · rw [hfails.unique hfails']
      · have hle := hv.length_le_of_fails hdoes hfail
        omega

/-- Bounds that are greater than the number of steps are large enough. -/
theorem ne_stuck_of_bound {root index : ℕ}
    (hlists : ¬ Fails (Task.step F fs fuel) ([.enter [] root index], s) .stuck) {n : ℕ}
    (hn : ∀ v c, Does (Task.step F fs fuel) ([.enter [] root index], s) v c → v.length < n) :
    ∀ rounds depth, n ≤ rounds → n ≤ depth →
      createDirectoryEntry F fs fuel rounds depth s root index ≠ .error .stuck := by
  intro rounds depth hrounds hdepth hstuck
  have hrun := createDirectoryEntry_realized F fs fuel rounds depth [] s root index
  rw [hstuck] at hrun
  rcases hrun with hfails | ⟨-, v, c, hv, hlong⟩
  · exact hlists hfails
  · have := hn v c hv
    omega

/-- A function that does not run out of its bounds comes to an end, and the machine too. -/
theorem halts_of_ne_stuck {root index : ℕ}
    (h : createDirectoryEntry F fs fuel rounds depth s root index ≠ .error .stuck) :
    (∃ visits s', Does (Task.step F fs fuel) ([.enter [] root index], s) visits ([], s')) ∨
      ∃ e, e ≠ .stuck ∧ Fails (Task.step F fs fuel) ([.enter [] root index], s) e := by
  have hrun := createDirectoryEntry_realized F fs fuel rounds depth [] s root index
  revert h hrun
  cases createDirectoryEntry F fs fuel rounds depth s root index with
  | ok s' =>
    rintro - ⟨v, hv⟩
    exact .inl ⟨v, s', hv⟩
  | error e =>
    intro he hrun
    have hne : e ≠ .stuck := fun heq => he (congrArg Except.error heq)
    exact .inr ⟨e, hne, hrun.resolve_right fun hstuck => hne hstuck.1⟩

end Cutesugar.Kernel.Fs
