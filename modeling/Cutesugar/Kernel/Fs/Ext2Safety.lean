import Cutesugar.Kernel.Fs.Ext2Image
import Cutesugar.Kernel.Fs.Ext2Import
import Cutesugar.Kernel.Fs.Ramfs

/-!
# Memory safety of the import

Every number that the import computes an address from is read from the disk. A task is safe if the
numbers that it reads lead to bytes of the buffers that it has allocated.

- `InodeSafe`, `EntrySafe`, `Task.Safe`: what the disk has to hold.
- `import_safe_iff`: imports without a fault of the memory.
-/

namespace Cutesugar.Kernel.Fs

open Lib

variable (F : FileSystem)

/-- The first `n` bytes of an inode are within the sixteen descriptors and the inode table that are
read. -/
structure InodeSafe (index n : ℕ) : Prop where
  device : F.blockDevice.blockSize ≠ 0
  groups : inodesPerGroup F ≠ 0
  descriptor : (index - 1) / inodesPerGroup F < 16
  table : (index - 1) % inodesPerGroup F * inodeSize F + n ≤ 0x4000

/-- What the comparison with the names of the dots reads. -/
def DotsSafe (bytes : List UInt8) : Prop :=
  9 ≤ bytes.length ∧ (field bytes 8 1 = 46 → 10 ≤ bytes.length ∧
    (field bytes 9 1 = 46 → 11 ≤ bytes.length))

/-- The bytes of an entry lead to an inode and to a name that fits the `room` there is for it. -/
structure EntrySafe (room : ℕ) (bytes : List UInt8) : Prop where
  dots : DotsSafe bytes
  inode : isDots bytes = .ok false → field bytes 8 1 ≠ 0 →
    1 ≤ field bytes 0 4 ∧ InodeSafe F (field bytes 0 4) 2
  directory : isDots bytes = .ok false → field bytes 8 1 ≠ 0 →
    ∀ object, inodeAt F (field bytes 0 4) = .ok object → field object 0 2 &&& 0x4000 ≠ 0 →
      40 ≤ bytes.length
  file : isDots bytes = .ok false → field bytes 8 1 ≠ 0 →
    ∀ object, inodeAt F (field bytes 0 4) = .ok object → field object 0 2 &&& 0x4000 = 0 →
      field bytes 6 1 ≤ room ∧ 8 + field bytes 6 1 ≤ bytes.length

/-- **What a task needs of the disk**, with the room that there is for the name of a file. -/
def Task.Safe (room : ℕ) : Task → Prop
  | .enter _ _ index => index < 1 ∨ InodeSafe F index 2
  | .block _ inode i => 44 + 4 * i ≤ inode.length ∧
      (field inode (40 + 4 * i) 4 ≠ 0 → F.blockDevice.blockSize ≠ 0)
  | .sector _ _ _ _ => F.blockDevice.blockSize ≠ 0
  | .entry _ _ _ limit index bytes => index < limit → EntrySafe F room bytes

variable {F} {fs fuel a b n index root : ℕ} {bytes object : List UInt8} {s s' : Ext2State}
  {t : Task} {e : Fault}

/-! ## Inodes -/

theorem divide_eq_ok : divide a b = .ok n ↔ b ≠ 0 ∧ a / b = n := by
  unfold divide
  split_ifs with h
  · exact iff_of_false (by simp) fun heq => heq.1 h
  · exact ⟨fun heq => ⟨h, Except.ok.inj heq⟩, fun heq => congrArg Except.ok heq.2⟩

theorem length_inodeTable (read : ℕ → List.Vector UInt8 512) (location : ℕ) :
    ((List.range 32).flatMap fun i => (read (location + i)).toList).length = 0x4000 := by
  rw [List.length_flatMap]
  simp

/-- `ReadInode` gets to its table if the descriptor is one of the sixteen; the inode has as many
bytes as there are from it to the end of the table. -/
theorem inodeAt_isOk_iff : (∃ object, inodeAt F index = .ok object) ↔
    F.blockDevice.blockSize ≠ 0 ∧ inodesPerGroup F ≠ 0 ∧ (index - 1) / inodesPerGroup F < 16 := by
  constructor
  · rintro ⟨object, h⟩
    obtain ⟨place, hplace, h⟩ := Libc.bind_eq_ok.mp h
    obtain ⟨group, hgroup, h⟩ := Libc.bind_eq_ok.mp h
    obtain ⟨table, htable, -⟩ := Libc.bind_eq_ok.mp h
    obtain ⟨hgroups, rfl⟩ := divide_eq_ok.mp hgroup
    have hlen := (readField_eq_ok.mp htable).1
    rw [List.length_drop, List.Vector.toList_length] at hlen
    exact ⟨(divide_eq_ok.mp hplace).1, hgroups, by omega⟩
  · rintro ⟨hdevice, hgroups, hlt⟩
    have hplace := divide_eq_ok.mpr ⟨hdevice, Eq.refl (2048 / F.blockDevice.blockSize)⟩
    have hgroup := divide_eq_ok.mpr ⟨hgroups, Eq.refl ((index - 1) / inodesPerGroup F)⟩
    have hlen : 8 + 4 ≤ ((F.blockDevice.read (2048 / F.blockDevice.blockSize)).toList.drop
        (32 * ((index - 1) / inodesPerGroup F))).length := by
      rw [List.length_drop, List.Vector.toList_length]
      omega
    exact ⟨_, Libc.bind_eq_ok.mpr ⟨_, hplace, Libc.bind_eq_ok.mpr ⟨_, hgroup,
      Libc.bind_eq_ok.mpr ⟨_, readField_of_le hlen, Libc.bind_eq_ok.mpr
        ⟨_, divide_eq_ok.mpr ⟨hdevice, rfl⟩, rfl⟩⟩⟩⟩⟩

theorem length_inodeAt (h : inodeAt F index = .ok object) :
    object.length = 0x4000 - (index - 1) % inodesPerGroup F * inodeSize F := by
  obtain ⟨place, -, h⟩ := Libc.bind_eq_ok.mp h
  obtain ⟨group, -, h⟩ := Libc.bind_eq_ok.mp h
  obtain ⟨table, -, h⟩ := Libc.bind_eq_ok.mp h
  obtain ⟨location, -, h⟩ := Libc.bind_eq_ok.mp h
  obtain rfl := Except.ok.inj h
  rw [List.length_drop, length_inodeTable]

/-- **Inodes**: the start of an inode can be read exactly if it is within the buffers. -/
theorem inodeSafe_iff (hn : 0 < n) :
    (∃ object v, inodeAt F index = .ok object ∧ readField object 0 n = .ok v) ↔
      InodeSafe F index n := by
  constructor
  · rintro ⟨object, v, hobject, hv⟩
    obtain ⟨hdevice, hgroups, hlt⟩ := inodeAt_isOk_iff.mp ⟨object, hobject⟩
    have hlen := (readField_eq_ok.mp hv).1
    rw [length_inodeAt hobject] at hlen
    exact ⟨hdevice, hgroups, hlt, by omega⟩
  · rintro ⟨hdevice, hgroups, hlt, hle⟩
    obtain ⟨object, hobject⟩ := inodeAt_isOk_iff.mpr ⟨hdevice, hgroups, hlt⟩
    refine ⟨object, _, hobject, readField_of_le ?_⟩
    rw [length_inodeAt hobject]
    omega

/-! ## Entries -/

/-- The comparisons with the dots, byte by byte. -/
def dotsIn : List UInt8 → Except Fault Bool
  | [] => .error .overread
  | c :: rest =>
    if c ≠ 46 then .ok false
    else match rest with
      | [] => .error .overread
      | d :: rest =>
        if d = 0 then .ok true
        else if d ≠ 46 then .ok false
        else match rest with
          | [] => .error .overread
          | x :: _ => .ok (x == 0)

theorem toNat_sub_ne_zero {c d : UInt8} (h : c ≠ d) : (c.toNat : ℤ) - d.toNat ≠ 0 := by
  intro heq
  exact h (UInt8.toNat_inj.mp (by omega))

theorem isDots_eq (bytes : List UInt8) : isDots bytes = dotsIn (bytes.drop 8) := by
  unfold isDots
  cases bytes.drop 8 with
  | nil => rfl
  | cons c rest =>
    by_cases hc : c = 46
    · subst hc
      cases rest with
      | nil => rfl
      | cons d rest =>
        by_cases hd : d = 0
        · subst hd
          rfl
        · have hzero : d.toNat ≠ 0 := fun heq => hd (UInt8.toNat_inj.mp heq)
          by_cases hd46 : d = 46
          · subst hd46
            cases rest with
            | nil => rfl
            | cons x rest =>
              by_cases hx : x = 0
              · subst hx
                rfl
              · have hzero : x.toNat ≠ 0 := fun heq => hx (UInt8.toNat_inj.mp heq)
                simp [Libc.strncmp, dotsIn, Ne.symm hx, hx, hzero, bind, Except.bind,
                  Except.mapError]
          · have hdot : (d.toNat : ℤ) - 46 ≠ 0 := toNat_sub_ne_zero hd46
            simp [Libc.strncmp, dotsIn, Ne.symm hd, hd, hd46, Ne.symm hd46, hzero, hdot, bind,
              Except.bind, Except.mapError]
    · have hdot : (c.toNat : ℤ) - 46 ≠ 0 := toNat_sub_ne_zero hc
      simp [Libc.strncmp, dotsIn, Ne.symm hc, hc, hdot, bind, Except.bind, Except.mapError]

theorem field_drop (bytes : List UInt8) (k offset n : ℕ) :
    field (bytes.drop k) offset n = field bytes (k + offset) n := by
  rw [field, field, List.drop_drop]

theorem field_cons {c : UInt8} {rest : List UInt8} : field (c :: rest) 0 1 = c.toNat := rfl

/-- The comparisons with the dots stay within the buffer. -/
theorem isDots_isOk_iff : (∃ b, isDots bytes = .ok b) ↔ DotsSafe bytes := by
  have hlen : (bytes.drop 8).length = bytes.length - 8 := List.length_drop
  have hfirst : field bytes 8 1 = field (bytes.drop 8) 0 1 := (field_drop bytes 8 0 1).symm
  have hsecond : field bytes 9 1 = field (bytes.drop 8) 1 1 := (field_drop bytes 8 1 1).symm
  have hdot {c : UInt8} : c.toNat = 46 ↔ c = 46 := (UInt8.toNat_inj (b := 46))
  rw [isDots_eq, DotsSafe, hfirst, hsecond]
  generalize bytes.drop 8 = name at hlen
  cases name with
  | nil => simp [dotsIn]; simp at hlen; omega
  | cons c rest =>
    rw [List.length_cons] at hlen
    have h9 : 9 ≤ bytes.length := by omega
    rw [field_cons, hdot, and_iff_right h9]
    by_cases hc : c = 46
    · subst hc
      cases rest with
      | nil => simp [dotsIn]; simp at hlen; omega
      | cons d rest =>
        rw [List.length_cons] at hlen
        have h10 : 10 ≤ bytes.length := by omega
        have hd : field (46 :: d :: rest) 1 1 = d.toNat := rfl
        rw [hd, hdot, and_iff_right h10]
        by_cases hd46 : d = 46
        · subst hd46
          cases rest with
          | nil => simp [dotsIn]; simp at hlen; omega
          | cons x rest =>
            rw [List.length_cons] at hlen
            have h11 : 11 ≤ bytes.length := by omega
            simp [dotsIn, h11]
        · by_cases hd0 : d = 0
          · simp [dotsIn, hd0]
          · simp [dotsIn, hd46, hd0]
    · simp [dotsIn, hc]

/-- **Entries**: the branch at an entry can be taken exactly if the entry is safe, with the block of
the object as the room for its name. -/
theorem kindOf_isOk_iff : (∃ kind, kindOf F bytes = .ok kind) ↔ EntrySafe F 128 bytes := by
  constructor
  · rintro ⟨kind, h⟩
    obtain ⟨hlen, hspec⟩ := kindOf_spec h
    cases kind with
    | blank =>
      -- an entry without a name: the inode is not looked at
      obtain ⟨hdots, hzero⟩ := hspec
      exact ⟨isDots_isOk_iff.mp ⟨_, hdots⟩, fun _ hne => absurd hzero hne,
        fun _ hne => absurd hzero hne, fun _ hne => absurd hzero hne⟩
    | dots =>
      have hne : isDots bytes ≠ .ok false := by
        rw [show isDots bytes = .ok true from hspec]
        simp
      exact ⟨isDots_isOk_iff.mp ⟨_, hspec⟩, fun hdots => absurd hdots hne,
        fun hdots => absurd hdots hne, fun hdots => absurd hdots hne⟩
    | directory inode name =>
      obtain ⟨hdots, -, rfl, hpos, hname, object, type, hobject, htype, hdir⟩ := hspec
      have hinode := (inodeSafe_iff (by decide)).mp ⟨object, type, hobject, htype⟩
      refine ⟨isDots_isOk_iff.mp ⟨_, hdots⟩, fun _ _ => ⟨hpos, hinode⟩, fun _ _ _ _ _ => ?_,
        fun _ _ object' hobject' hfile => ?_⟩
      · unfold readName at hname
        split_ifs at hname with h40
        exact h40
      · -- the inode is a directory, so the clause on files is void
        obtain rfl := Except.ok.inj (hobject.symm.trans hobject')
        rw [(readField_eq_ok.mp htype).2] at hfile
        exact absurd hfile hdir
    | file inode name =>
      obtain ⟨hdots, -, rfl, hpos, hname, hlong, object, type, hobject, htype, hfile⟩ := hspec
      have hinode := (inodeSafe_iff (by decide)).mp ⟨object, type, hobject, htype⟩
      refine ⟨isDots_isOk_iff.mp ⟨_, hdots⟩, fun _ _ => ⟨hpos, hinode⟩,
        fun _ _ object' hobject' hdir => ?_, fun _ _ _ _ _ => ?_⟩
      · -- and the other way round
        obtain rfl := Except.ok.inj (hobject.symm.trans hobject')
        rw [(readField_eq_ok.mp htype).2] at hdir
        exact absurd hfile hdir
      · unfold readBytes at hname
        split_ifs at hname with hle
        obtain rfl := Except.ok.inj hname
        rw [List.length_take, List.length_drop] at hlong
        omega
  · rintro ⟨hdots, hinode, hdirectory, hfile⟩
    obtain ⟨dots, hdots'⟩ := isDots_isOk_iff.mpr hdots
    have hlen : 9 ≤ bytes.length := hdots.1
    have hfirst : readField bytes 8 1 = .ok (field bytes 8 1) := readField_of_le (by omega)
    have hnumber : readField bytes 0 4 = .ok (field bytes 0 4) := readField_of_le (by omega)
    have hlength : readField bytes 6 1 = .ok (field bytes 6 1) := readField_of_le (by omega)
    unfold kindOf
    simp only [hfirst, hdots', hnumber, hlength, bind, Except.bind]
    cases dots with
    | true => exact ⟨.dots, rfl⟩
    | false =>
      by_cases hzero : field bytes 8 1 = 0
      · simp [hzero]
      · obtain ⟨hpos, hsafe⟩ := hinode hdots' hzero
        obtain ⟨object, type, hobject, htype⟩ := (inodeSafe_iff (by decide)).mpr hsafe
        have hentry : entryInode F (field bytes 0 4) = .ok object :=
          entryInode_eq_ok.mpr ⟨hpos, hobject⟩
        obtain ⟨-, hvalue⟩ := readField_eq_ok.mp htype
        simp only [hzero, hentry, htype, if_false, Bool.false_eq_true]
        by_cases hdir : type &&& 0x4000 ≠ 0
        · have h40 := hdirectory hdots' hzero object hobject (hvalue.symm ▸ hdir)
          have hname : ∃ name, readName bytes = .ok name := ⟨_, dif_pos h40⟩
          obtain ⟨name, hname⟩ := hname
          simp only [hdir, if_true, hname, ne_eq, not_false_eq_true]
          exact ⟨_, rfl⟩
        · obtain ⟨hlong, hle⟩ := hfile hdots' hzero object hobject (hvalue.symm ▸ not_not.mp hdir)
          have hname : readBytes bytes 8 (field bytes 6 1) =
              .ok ((bytes.drop 8).take (field bytes 6 1)) := if_pos hle
          have hshort : ¬ 128 < ((bytes.drop 8).take (field bytes 6 1)).length := by
            rw [List.length_take]
            omega
          simp only [hdir, if_false, hname, hshort]
          exact ⟨_, rfl⟩

/-! ## Faults of the memory -/

/-- A sequence whose parts do not run out of a bound does not. -/
theorem bind_ne_stuck {α β : Type} {x : Except Fault α} {g : α → Except Fault β}
    (hx : x ≠ .error .stuck) (hg : ∀ v, x = .ok v → g v ≠ .error .stuck) :
    x >>= g ≠ .error .stuck := by
  cases x with
  | error e => exact fun h => hx (congrArg Except.error (Except.error.inj h))
  | ok v => exact hg v rfl

theorem readField_ne_stuck (offset : ℕ) : readField bytes offset n ≠ .error .stuck := by
  unfold readField
  split_ifs
  · simp
  · simp

theorem divide_ne_stuck : divide a b ≠ .error .stuck := by
  unfold divide
  split_ifs
  · simp
  · simp

theorem inodeAt_ne_stuck : inodeAt F index ≠ .error .stuck := by
  refine bind_ne_stuck divide_ne_stuck fun place _ => ?_
  refine bind_ne_stuck divide_ne_stuck fun group _ => ?_
  refine bind_ne_stuck (readField_ne_stuck 8) fun table _ => ?_
  refine bind_ne_stuck divide_ne_stuck fun location _ => ?_
  simp

theorem isDots_ne_stuck : isDots bytes ≠ .error .stuck := by
  rw [isDots_eq]
  unfold dotsIn
  split
  · simp
  · split_ifs
    · simp
    · split
      · simp
      · split_ifs
        · simp
        · simp
        · split
          · simp
          · simp

theorem kindOf_ne_stuck : kindOf F bytes ≠ .error .stuck := by
  refine bind_ne_stuck (readField_ne_stuck 8) fun first _ => ?_
  refine bind_ne_stuck isDots_ne_stuck fun dots _ => ?_
  split_ifs
  · simp
  · simp
  · refine bind_ne_stuck (readField_ne_stuck 0) fun inode _ => ?_
    have hentry : entryInode F inode ≠ .error .stuck := by
      unfold entryInode
      split_ifs
      · simp
      · exact inodeAt_ne_stuck
    refine bind_ne_stuck hentry fun object _ => ?_
    refine bind_ne_stuck (readField_ne_stuck 0) fun type _ => ?_
    have hname : readName bytes ≠ .error .stuck := by
      unfold readName
      split_ifs
      · simp
      · simp
    have hbytes (k : ℕ) : readBytes bytes 8 k ≠ .error .stuck := by
      unfold readBytes
      split_ifs
      · simp
      · simp
    split_ifs
    · exact bind_ne_stuck hname fun name _ => by simp
    · refine bind_ne_stuck (readField_ne_stuck 6) fun length _ => ?_
      refine bind_ne_stuck (hbytes length) fun name _ => ?_
      split_ifs
      · simp
      · simp

/-! ## Tasks -/

variable {new : List Task}

/-- A task that is not safe is a fault of the memory. -/
theorem Task.not_safe (fs fuel : ℕ) (s : Ext2State) (h : ¬ t.Safe F 128) :
    ∃ e, e ≠ .stuck ∧ Task.step F fs fuel s t = .error e := by
  cases t with
  | enter path root index =>
    obtain ⟨hpos, hunsafe⟩ := not_or.mp h
    rw [Task.step, readInode, if_neg hpos]
    cases hinode : inodeAt F index with
    | error e => exact ⟨e, fun he => inodeAt_ne_stuck (he ▸ hinode), rfl⟩
    | ok inode =>
      cases htype : readField inode 0 2 with
      | error e =>
        refine ⟨e, fun he => readField_ne_stuck 0 (he ▸ htype), ?_⟩
        simp only [bind, Except.bind, htype]
      | ok type =>
        exact absurd ((inodeSafe_iff (by decide)).mp ⟨inode, type, hinode, htype⟩) hunsafe
  | block f inode i =>
    rw [Task.step]
    cases hpointer : readField inode (40 + 4 * i) 4 with
    | error e => exact ⟨e, fun he => readField_ne_stuck _ (he ▸ hpointer), rfl⟩
    | ok pointer =>
      obtain ⟨hlen, hvalue⟩ := readField_eq_ok.mp hpointer
      -- the sectors of a block are counted by a division
      have hcond : ¬ (pointer ≠ 0 → F.blockDevice.blockSize ≠ 0) :=
        fun hall => h ⟨by omega, hvalue ▸ hall⟩
      obtain ⟨hne, hzero⟩ := Classical.not_imp.mp hcond
      refine ⟨.divide, by simp, ?_⟩
      simp only [bind, Except.bind, hne, if_false, divide, not_not.mp hzero, if_true]
  | sector f i pointer count =>
    refine ⟨.divide, by simp, ?_⟩
    simp only [Task.step, sectorOf, divide, not_not.mp h, if_true, bind, Except.bind]
  | entry f i count limit index bytes =>
    obtain ⟨hlt, hunsafe⟩ := Classical.not_imp.mp h
    rw [Task.step, if_pos hlt]
    cases hkind : kindOf F bytes with
    | error e => exact ⟨e, fun he => kindOf_ne_stuck (he ▸ hkind), rfl⟩
    | ok kind => exact absurd (kindOf_isOk_iff.mp ⟨kind, hkind⟩) hunsafe

theorem orFault_stuck {α : Type} {x : Option α} (hroot : root ≠ 0)
    (h : orFault root x = .error e) : e = .stuck := by
  cases x with
  | none =>
    rw [orFault, if_neg hroot] at h
    exact (Except.error.inj h).symm
  | some a => exact absurd h (by simp [orFault])

/-- Lists of the kernel are the only way in which a creation does not return. -/
theorem addDirectory_stuck {name : List.Vector UInt8 32} (hroot : root ≠ 0)
    (h : addDirectory fuel s root name = .error e) : e = .stuck := by
  unfold addDirectory at h
  cases hcreate : orFault root (createDirectory fuel s.kernel root name) with
  | error e' =>
    rw [hcreate] at h
    obtain rfl := Except.error.inj h
    exact orFault_stuck hroot hcreate
  | ok created =>
    rw [hcreate] at h
    cases hadd : orFault root (directoryAddChild fuel created.2 root created.1) with
    | error e' =>
      simp only [hadd, bind, Except.bind] at h
      obtain rfl := Except.error.inj h
      exact orFault_stuck hroot hadd
    | ok k => exact absurd h (by simp [hadd, bind, Except.bind])

theorem addFile_stuck {inode : ℕ} {name : List UInt8} (hroot : root ≠ 0) (hname : name.length ≤ 128)
    (h : addFile fuel fs s root inode name = .error e) : e = .stuck := by
  simp only [addFile, if_neg (Nat.not_lt_of_le hname), bind, Except.bind] at h
  split at h
  · obtain rfl := Except.error.inj h
    exact orFault_stuck hroot ‹_›
  · exact absurd h (by simp)

/-- A safe task can be done unless a list of the kernel is in the way. -/
theorem Task.Safe.stuck (h : t.Safe F 128) (hroot : t.parent ≠ 0)
    (he : Task.step F fs fuel s t = .error e) : e = .stuck := by
  cases t with
  | enter path root index =>
    rw [Task.step, readInode] at he
    split_ifs at he with hnull
    · exact absurd he (by simp [bind, Except.bind])
    · obtain ⟨inode, type, hinode, htype⟩ :=
        (inodeSafe_iff (by decide)).mpr (h.resolve_left hnull)
      simp only [hinode, htype, bind, Except.bind] at he
      split_ifs at he
  | block f inode i =>
    obtain ⟨hlen, hdevice⟩ := h
    rw [Task.step, readField_of_le (by omega)] at he
    simp only [bind, Except.bind] at he
    split_ifs at he with hzero
    rw [divide, if_neg (hdevice hzero)] at he
    exact absurd he (by simp)
  | sector f i pointer count =>
    rw [Task.step, sectorOf, divide, if_neg h] at he
    exact absurd he (by simp [bind, Except.bind])
  | entry f i count limit index bytes =>
    rw [Task.step] at he
    split_ifs at he with hlt
    obtain ⟨kind, hkind⟩ := kindOf_isOk_iff.mpr (h hlt)
    obtain ⟨hlen, hspec⟩ := kindOf_spec hkind
    have hsize : readField bytes 4 2 = .ok (field bytes 4 2) := readField_of_le (by omega)
    simp only [hkind, hsize, bind, Except.bind] at he
    cases kind with
    | blank => exact absurd he (by simp)
    | dots => exact absurd he (by simp)
    | directory inode name =>
      -- all reads are done: what is left to fail is the walk over a header list
      cases hadd : addDirectory fuel (s.skip 2) f.root name with
      | error e' =>
        simp only [hadd] at he
        obtain rfl := Except.error.inj he
        exact addDirectory_stuck hroot hadd
      | ok added => exact absurd he (by simp [hadd])
    | file inode name =>
      cases hadd : addFile fuel fs (s.skip 2) f.root inode name with
      | error e' =>
        simp only [hadd] at he
        obtain rfl := Except.error.inj he
        exact addFile_stuck hroot hspec.2.2.2.2.2.1 hadd
      | ok s' => exact absurd he (by simp [hadd])

/-- The objects that tasks add to are the one of the call and new blocks. -/
theorem does_parent {visits : List (Task × Ext2State)} {c c' : Agenda Task Ext2State}
    (hb : Blocks c.2.kernel) (h : Does (Task.step F fs fuel) c visits c')
    (hc : ∀ t ∈ c.1, t.parent ≠ 0) : ∀ t ∈ c'.1, t.parent ≠ 0 := by
  refine (h.invariant (I := fun t => t.parent ≠ 0) (J := fun s => Blocks s.kernel)
    (fun t s new s' _ ht hs hstep => ⟨fun x hx => ?_, ?_⟩) hc hb).1
  · rcases Task.step_cases hstep with ⟨-, hnew, -⟩ |
      ⟨f, i, count, limit, index, bytes, inode, name, dir, rfl, -, -, hadd, rfl⟩ |
      ⟨f, i, count, limit, index, bytes, inode, name, rfl, -, -, -, rfl⟩
    · rw [hnew x hx]
      exact ht
    · rcases List.mem_cons.mp hx with rfl | hx
      · rw [Task.parent, (addDirectory_spec hadd).1]
        exact hs.nonnull _
      · rw [more_parent hx]
        exact ht
    · rw [more_parent hx]
      exact ht
  · have hblocks := (Task.step_keeps hstep).blocks
    exact ⟨hblocks ▸ hs.nonnull, hblocks ▸ hs.injective⟩

/-! ## Names -/

/-- The copy of the name of an object ends within its name field. -/
def Built.InField (b : Built) : Prop := b.isDirectory = false → field b.entry 6 1 ≤ 64

theorem EntrySafe.mono {room room' : ℕ} (h : EntrySafe F room bytes) (hle : room ≤ room') :
    EntrySafe F room' bytes where
  dots := h.dots
  inode := h.inode
  directory := h.directory
  file hdots hfirst object hobject htype := by
    obtain ⟨hroom, hlen⟩ := h.file hdots hfirst object hobject htype
    exact ⟨hroom.trans hle, hlen⟩

theorem Task.Safe.mono {room room' : ℕ} (h : t.Safe F room) (hle : room ≤ room') : t.Safe F room' := by
  cases t with
  | enter => exact h
  | block => exact h
  | sector => exact h
  | entry => exact fun hlt => (h hlt).mono hle

/-- **Names within the field**: a task whose accesses stay within blocks is safe exactly if the name
of the object that it makes ends within the name field. -/
theorem Task.safe_iff (s : Ext2State) (h : t.Safe F 128) :
    t.Safe F 64 ↔ ∀ b ∈ builtAt F (t, s), b.InField := by
  cases t with
  | enter => exact iff_of_true h fun b hb => absurd hb (Option.not_mem_none b)
  | block => exact iff_of_true h fun b hb => absurd hb (Option.not_mem_none b)
  | sector => exact iff_of_true h fun b hb => absurd hb (Option.not_mem_none b)
  | entry f i count limit index bytes =>
    by_cases hlt : index < limit
    · have hsafe := h hlt
      obtain ⟨kind, hkind⟩ := kindOf_isOk_iff.mpr hsafe
      have hspec := (kindOf_spec hkind).2
      constructor
      · rintro hfield b hb hfile
        simp only [builtAt, if_pos hlt, hkind] at hb
        cases kind with
        | blank => cases hb
        | dots => cases hb
        | directory inode name =>
          obtain rfl := Option.some.inj hb
          cases hfile
        | file inode name =>
          obtain rfl := Option.some.inj hb
          obtain ⟨hdots, hfirst, rfl, -, -, -, object, type, hobject, htype, hbit⟩ := hspec
          obtain ⟨-, rfl⟩ := readField_eq_ok.mp htype
          exact ((hfield hlt).file hdots hfirst object hobject hbit).1
      · intro hall _
        refine ⟨hsafe.dots, hsafe.inode, hsafe.directory, fun hdots hfirst object hobject hbit => ?_⟩
        refine ⟨?_, (hsafe.file hdots hfirst object hobject hbit).2⟩
        simp only [builtAt, if_pos hlt, hkind] at hall
        cases kind with
        | blank => exact absurd hspec.2 hfirst
        | dots => exact absurd (hdots.symm.trans hspec) (by simp)
        | directory inode name =>
          -- the inode is a file
          obtain ⟨-, -, rfl, -, -, object', type, hobject', htype, hdir⟩ := hspec
          obtain rfl := Except.ok.inj (hobject.symm.trans hobject')
          obtain ⟨-, rfl⟩ := readField_eq_ok.mp htype
          exact absurd hbit hdir
        | file inode name => exact hall _ rfl rfl
    · refine iff_of_true (fun hlt' => absurd hlt' hlt) fun b hb => ?_
      simp only [builtAt, if_neg hlt] at hb
      cases hb

/-- **Memory safety**: an import never ends in a fault of the memory, and no name is copied beyond a
name field, exactly if every task that it comes to is safe: inodes are within the sixteen
descriptors and the table that are read, entries that name something do not name the null inode, and
names fit the field. -/
theorem import_safe_iff (hb : Blocks s.kernel) (hroot : root ≠ 0) :
    ((∀ fuel rounds depth e, createDirectoryEntry F fs fuel rounds depth s root index = .error e →
        e = .stuck) ∧
      ∀ fuel visits t rest s', Does (Task.step F fs fuel) ([.enter [] root index], s) visits
        (t :: rest, s') → ∀ b ∈ builtAt F (t, s'), b.InField) ↔
    ∀ fuel visits t rest s', Does (Task.step F fs fuel) ([.enter [] root index], s) visits
      (t :: rest, s') → t.Safe F 64 := by
  constructor
  · rintro ⟨hfaults, hnames⟩ fuel visits t rest s' hdoes
    have hsafe : t.Safe F 128 := by
      by_contra hunsafe
      obtain ⟨e, he, hfail⟩ := Task.not_safe fs fuel s' hunsafe
      obtain ⟨rounds, depth, hfault⟩ := (fault_iff_fails he).mpr ⟨visits, t, rest, s', hdoes, hfail⟩
      exact he (hfaults fuel rounds depth e hfault)
    exact (Task.safe_iff s' hsafe).mpr (hnames fuel visits t rest s' hdoes)
  · intro hsafe
    have hinside {fuel visits t rest s'} (hdoes : Does (Task.step F fs fuel) ([.enter [] root index], s)
        visits (t :: rest, s')) : t.Safe F 128 := (hsafe fuel visits t rest s' hdoes).mono (by decide)
    constructor
    · intro fuel rounds depth e hfault
      by_contra he
      obtain ⟨visits, t, rest, s', hdoes, hfail⟩ := (fault_iff_fails he).mp ⟨rounds, depth, hfault⟩
      have hparent : t.parent ≠ 0 := by
        refine does_parent hb hdoes (fun x hx => ?_) t (List.mem_cons_self ..)
        rw [List.mem_singleton.mp hx]
        exact hroot
      exact he ((hinside hdoes).stuck hparent hfail)
    · intro fuel visits t rest s' hdoes
      exact (Task.safe_iff s' (hinside hdoes)).mp (hsafe fuel visits t rest s' hdoes)

/-! ## A small disk -/

/-- A sector that starts with some bytes. -/
def sectorFrom (bytes : List UInt8) : List.Vector UInt8 512 :=
  ⟨(bytes ++ List.replicate 512 0).take 512, by
    rw [List.length_take, List.length_append, List.length_replicate]; omega⟩

/-- Blocks of 1024 bytes, and groups of eight inodes of 128 bytes. -/
def smallSuperblock : List.Vector UInt8 512 :=
  sectorFrom (List.replicate 20 0 ++ [1] ++ List.replicate 19 0 ++ [8, 0, 0, 0] ++
    List.replicate 12 0 ++ [0x53, 0xEF] ++ List.replicate 30 0 ++ [128, 0])

/-- A disk with sectors of 512 bytes: the inode table is block 5, and block 6 has the entries of a
directory. -/
def diskWith (inodes entries : List UInt8) : BlockDevice where
  blockSize := 512
  small := by decide
  read n :=
    if n = 2 then smallSuperblock
    else if n = 4 then sectorFrom (List.replicate 8 0 ++ [5])
    else if n = 10 then sectorFrom inodes
    else if n = 12 then sectorFrom entries
    else sectorFrom []

def onDisk (bd : BlockDevice) : FileSystem := ⟨smallSuperblock, bd⟩

/-- Inode 2, with block 6. -/
def rootInode : List UInt8 :=
  List.replicate 128 0 ++ [0xED, 0x41] ++ List.replicate 38 0 ++ [6, 0, 0, 0]

/-- The root directory, and inode 3 of a type. -/
def twoInodes (type : UInt8) : List UInt8 := rootInode ++ List.replicate 84 0 ++ [0xA4, type]

/-- An entry `a` that names inode 3. -/
def entryOfThree : List UInt8 := [3, 0, 0, 0, 0, 4, 1, 1, 97]

/-- A disk with one entry in its root directory. -/
def oneEntry (type : UInt8) : FileSystem := onDisk (diskWith (twoInodes type) entryOfThree)

theorem oneEntry_fewInodes (type : UInt8) (htype : type = 0x41 ∨ type = 0x81) :
    FewInodes (oneEntry type) [2, 3] := by
  -- the sectors of the disk differ in the type of inode 3 only
  rcases htype with rfl | rfl
  · refine ⟨rfl, rfl, ?_, ?_, ?_, ?_, ?_, ?_, ?_, ?_⟩ <;> decide +kernel
  · refine ⟨rfl, rfl, ?_, ?_, ?_, ?_, ?_, ?_, ?_, ?_⟩ <;> decide +kernel

theorem oneEntry_wellFormed (type : UInt8) (htype : type = 0x41 ∨ type = 0x81) :
    WellFormed (oneEntry type) :=
  (oneEntry_fewInodes type htype).wellFormed

theorem oneEntry_reads (type : UInt8) (htype : type = 0x41 ∨ type = 0x81) (index : ℕ)
    (h : InTree (oneEntry type) index) : ReadsInode (oneEntry type) index :=
  (oneEntry_fewInodes type htype).readsInode h

/-- The kernel before the file system is mounted. -/
def bootExt2 : Ext2State where
  toFsState := bootFs
  fileSystems := fun _ => onDisk (diskWith [] [])
  held := fun _ _ => 0

/-- What a function ends with. -/
def faultOf {α : Type} : Except Fault α → Option Fault
  | .ok _ => none
  | .error e => some e

theorem eq_error_of_faultOf {α : Type} {x : Except Fault α} (h : faultOf x = some e) :
    x = .error e := by
  cases x with
  | error e' => exact congrArg Except.error (Option.some.inj h)
  | ok a => exact absurd h (by simp [faultOf])

/-- A deleted entry of 1024 bytes that has kept its name. -/
def deletedEntry : List UInt8 := [0, 0, 0, 0, 0, 4, 1, 1, 97]

/-- The null inode of a deleted entry is read. -/
theorem deleted_entry_null : signature (onDisk (diskWith rootInode deletedEntry)) = 0xEF53 ∧
    createDirectoryEntry (onDisk (diskWith rootInode deletedEntry)) 0 8 8 8 bootExt2 0x1000 2 =
      .error .null :=
  ⟨by decide +kernel, eq_error_of_faultOf (by decide +kernel)⟩

end Cutesugar.Kernel.Fs
