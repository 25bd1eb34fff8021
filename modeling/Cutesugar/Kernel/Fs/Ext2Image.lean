import Cutesugar.Kernel.Fs.Ext2

/-!
# What an ext2 image holds

The file system as it is on the disk, independent of the functions that read it: its bytes, its
inodes, and the entries of its directories.

- `diskInode`: an inode by its place on the disk.
- `parseEntries`: the entries of a block of a directory, if they are well formed.
- `WellFormed`: the tree of directories and files below the root directory.
-/

namespace Cutesugar.Kernel.Fs

open Lib

variable (F : FileSystem)

/-! ## Bytes and inodes -/

/-- Bytes of a device with sectors of 512 bytes, across the sectors that they are in. -/
def diskBytes (bd : BlockDevice) (start length : ℕ) : List UInt8 :=
  (((List.range (length / 512 + 2)).flatMap fun k => (bd.read (start / 512 + k)).toList).drop
    (start % 512)).take length

/-- An inode: its table is named by the descriptor of its group, and the descriptors are in the
block behind the one of the superblock. -/
def diskInode (index : ℕ) : List UInt8 :=
  let group := (index - 1) / inodesPerGroup F
  let descriptor := diskBytes F.blockDevice
    ((field F.superblock.toList 20 4 + 1) * blockSize F + 32 * group) 32
  diskBytes F.blockDevice (field descriptor 8 4 * blockSize F +
    (index - 1) % inodesPerGroup F * inodeSize F) 128

/-- `ReadInode` returns the inode that is on the disk. -/
def ReadsInode (index : ℕ) : Prop :=
  1 ≤ index ∧ ∃ rest, inodeAt F index = .ok (diskInode F index ++ rest)

/-- The type of an inode. -/
def inodeType (inode : List UInt8) : ℕ := field inode 0 2 &&& 0xF000

def directBlock (inode : List UInt8) (i : ℕ) : ℕ := field inode (40 + 4 * i) 4

/-! ## Directories -/

/-- The name of an entry. -/
def nameOf (entry : List UInt8) : List UInt8 := (entry.drop 8).take (field entry 6 1)

/-- An entry that is not deleted, and not one of the dots. -/
def Live (entry : List UInt8) : Prop :=
  field entry 0 4 ≠ 0 ∧ nameOf entry ≠ [46] ∧ nameOf entry ≠ [46, 46]

instance (entry : List UInt8) : Decidable (Live entry) :=
  inferInstanceAs (Decidable (_ ∧ _ ∧ _))

/-- An entry that `bytes` starts with: it has room for its name and ends at a multiple of four, and
unless it is deleted it has a name. -/
def EntryFormed (bytes : List UInt8) : Prop :=
  8 + field bytes 6 1 ≤ field bytes 4 2 ∧ field bytes 4 2 % 4 = 0 ∧
    field bytes 4 2 ≤ bytes.length ∧
    (field bytes 0 4 ≠ 0 → nameOf bytes ≠ [] ∧ 0 ∉ nameOf bytes ∧ 47 ∉ nameOf bytes)

instance (bytes : List UInt8) : Decidable (EntryFormed bytes) :=
  inferInstanceAs (Decidable (_ ∧ _ ∧ _ ∧ _))

/-- The entries from an offset on, each with the bytes from it to the end of the block. -/
def parseEntries : ℕ → ℕ → List UInt8 → Option (List (ℕ × List UInt8))
  | 0, _, bytes => if bytes = [] then some [] else none
  | n + 1, offset, bytes =>
    if bytes = [] then some []
    else if EntryFormed bytes then do
      let behind ← parseEntries n (offset + field bytes 4 2) (bytes.drop (field bytes 4 2))
      some ((offset, bytes) :: behind)
    else none

/-- The entries of a direct block. -/
def blockEntries (inode : List UInt8) (i : ℕ) : Option (List (ℕ × List UInt8)) :=
  if directBlock inode i = 0 then some []
  else parseEntries (blockSize F) 0
    (diskBytes F.blockDevice (directBlock inode i * blockSize F) (blockSize F))

/-- The place of an entry in a directory, and the inode that it names. -/
structure Place where
  block : ℕ
  offset : ℕ
  inode : ℕ
  deriving DecidableEq

/-- The live entries of a direct block. -/
def liveIn (inode : List UInt8) (i : ℕ) : List Place :=
  (((blockEntries F inode i).getD []).filter fun e => Live e.2).map fun e =>
    ⟨i, e.1, field e.2 0 4⟩

/-- **The live entries** of a directory. -/
def liveEntries (inode : List UInt8) : List Place := (List.range 12).flatMap (liveIn F inode)

/-! ## The tree -/

/-- The inodes of the tree below the root directory. -/
inductive InTree : ℕ → Prop where
  | root : InTree 2
  | entry {directory : ℕ} {p : Place} (hdirectory : InTree directory)
      (htype : inodeType (diskInode F directory) = 0x4000)
      (hp : p ∈ liveEntries F (diskInode F directory)) : InTree p.inode

/-- **A well-formed image** of directories and regular files on a device with sectors of 512
bytes. -/
structure WellFormed : Prop where
  device : F.blockDevice.blockSize = 512
  superblock : F.superblock = F.blockDevice.read 2
  signature : signature F = 0xEF53
  size : field F.superblock.toList 24 4 ≤ 6
  root : inodeType (diskInode F 2) = 0x4000
  type : ∀ index, InTree F index →
    inodeType (diskInode F index) = 0x4000 ∨ inodeType (diskInode F index) = 0x8000
  entries : ∀ index, InTree F index → inodeType (diskInode F index) = 0x4000 →
    ∀ i < 12, (blockEntries F (diskInode F index) i).isSome

variable {F} {n offset : ℕ} {bytes inode : List UInt8} {entries : List (ℕ × List UInt8)}

theorem length_diskBytes (bd : BlockDevice) (start length : ℕ) :
    (diskBytes bd start length).length = length := by
  have hsectors : ((List.range (length / 512 + 2)).flatMap fun k =>
      (bd.read (start / 512 + k)).toList).length = (length / 512 + 2) * 512 := by
    simp [List.length_flatMap]
  rw [diskBytes, List.length_take, List.length_drop, hsectors]
  omega

theorem length_diskInode (index : ℕ) : (diskInode F index).length = 128 := length_diskBytes ..

/-- A byte of a device. -/
theorem getElem?_diskBytes (bd : BlockDevice) {start length k : ℕ} (hk : k < length) :
    (diskBytes bd start length)[k]? =
      (bd.read ((start + k) / 512)).toList[(start + k) % 512]? := by
  have hlen : ∀ i, (bd.read (start / 512 + i)).toList.length = 512 := fun i =>
    List.Vector.toList_length _
  rw [diskBytes, List.getElem?_take_of_lt hk, List.getElem?_drop,
    getElem?_flatMap_range hlen (by omega)]
  have hsector : start / 512 + (start % 512 + k) / 512 = (start + k) / 512 := by omega
  have hplace : (start % 512 + k) % 512 = (start + k) % 512 := by omega
  rw [hsector, hplace]

/-- The size of a block does not overflow. -/
theorem blockSize_eq (h : field F.superblock.toList 24 4 < 22) :
    blockSize F = 1024 * 2 ^ field F.superblock.toList 24 4 := by
  have hshift : field F.superblock.toList 24 4 % 32 = field F.superblock.toList 24 4 := by omega
  unfold blockSize
  rw [hshift, Nat.shiftLeft_eq]
  apply Nat.mod_eq_of_lt
  calc 1024 * 2 ^ field F.superblock.toList 24 4 ≤ 1024 * 2 ^ 21 :=
        Nat.mul_le_mul_left _ (Nat.pow_le_pow_right (by decide) (by omega))
    _ < 2 ^ 32 := by decide

theorem WellFormed.blockSize_eq (h : WellFormed F) :
    blockSize F = 1024 * 2 ^ field F.superblock.toList 24 4 :=
  Fs.blockSize_eq (h.size.trans_lt (by decide))

/-- A block consists of a number of sectors. -/
theorem WellFormed.exists_sectors (h : WellFormed F) :
    ∃ n, blockSize F = 512 * n ∧ 2 ≤ n ∧ n ≤ 128 := by
  have hsize := h.size
  refine ⟨2 * 2 ^ field F.superblock.toList 24 4, ?_, ?_, ?_⟩
  · rw [h.blockSize_eq]
    omega
  · have := Nat.one_le_two_pow (n := field F.superblock.toList 24 4)
    omega
  · calc 2 * 2 ^ field F.superblock.toList 24 4 ≤ 2 * 2 ^ 6 :=
          Nat.mul_le_mul_left _ (Nat.pow_le_pow_right (by decide) hsize)
      _ = 128 := by decide

/-! ## Places -/

/-- The entries of a block are in order. -/
theorem parseEntries_offsets (h : parseEntries n offset bytes = some entries) :
    (entries.map Prod.fst).Pairwise (· < ·) ∧ ∀ o ∈ entries.map Prod.fst, offset ≤ o := by
  induction n generalizing offset bytes entries with
  | zero =>
    unfold parseEntries at h
    split_ifs at h
    obtain rfl := Option.some.inj h
    simp
  | succ n ih =>
    unfold parseEntries at h
    split_ifs at h with hnil hformed
    · obtain rfl := Option.some.inj h
      simp
    · obtain ⟨behind, hbehind, heq⟩ := Option.bind_eq_some_iff.mp h
      obtain rfl := Option.some.inj heq
      obtain ⟨horder, hle⟩ := ih hbehind
      -- an entry has room for its header
      have hsize := hformed.1
      refine ⟨List.pairwise_cons.mpr ⟨fun o ho => ?_, horder⟩, fun o ho => ?_⟩
      · have := hle o ho
        omega
      · rcases List.mem_cons.mp ho with rfl | ho
        · exact le_rfl
        · have := hle o ho
          omega

theorem nodup_liveIn (i : ℕ) : (liveIn F inode i).Nodup := by
  unfold liveIn
  cases hparse : blockEntries F inode i with
  | none => simp
  | some entries =>
    have horder : (entries.map Prod.fst).Pairwise (· < ·) := by
      unfold blockEntries at hparse
      split_ifs at hparse
      · obtain rfl := Option.some.inj hparse
        simp
      · exact (parseEntries_offsets hparse).1
    have hnodup : (entries.map Prod.fst).Nodup := horder.imp Nat.ne_of_lt
    apply List.Nodup.of_map Place.offset
    rw [List.map_map]
    exact hnodup.sublist (List.filter_sublist.map _)

/-- No two live entries are at the same place. -/
theorem nodup_liveEntries : (liveEntries F inode).Nodup := by
  apply List.nodup_flatMap.mpr
  refine ⟨fun i _ => nodup_liveIn i, List.nodup_range.imp fun {i j} hij p hi hj => hij ?_⟩
  have hblock : ∀ i, p ∈ liveIn F inode i → p.block = i := by
    intro i hp
    obtain ⟨e, -, rfl⟩ := List.mem_map.mp hp
    rfl
  exact (hblock i hi).symm.trans (hblock j hj)

/-- The test of the type bit tells the directories of a well-formed image. -/
theorem WellFormed.isDirectory_iff (h : WellFormed F) {index : ℕ} (htree : InTree F index) :
    field (diskInode F index) 0 2 &&& 0x4000 ≠ 0 ↔ inodeType (diskInode F index) = 0x4000 := by
  have hbit : inodeType (diskInode F index) &&& 0x4000 = field (diskInode F index) 0 2 &&& 0x4000 := by
    unfold inodeType
    rw [Nat.land_assoc]
    rfl
  rw [← hbit]
  rcases h.type index htree with htype | htype
  · rw [htype]
    decide
  · rw [htype]
    decide

/-! ## Images with few inodes -/

theorem readsInode_of {index : ℕ} (hpos : 1 ≤ index)
    (h : (inodeAt F index).toOption.map (List.take 128) = some (diskInode F index)) :
    ReadsInode F index := by
  obtain ⟨inode, hinode, htake⟩ := Option.map_eq_some_iff.mp h
  refine ⟨hpos, inode.drop 128, ?_⟩
  rw [← htake, List.take_append_drop]
  revert hinode
  cases inodeAt F index with
  | error e => simp [Except.toOption]
  | ok object => simp [Except.toOption]

/-- The inodes of a tree are among those that its directories lead to. -/
theorem InTree.subset {S : List ℕ} (hroot : 2 ∈ S)
    (hlive : ∀ index ∈ S, inodeType (diskInode F index) = 0x4000 →
      ∀ p ∈ liveEntries F (diskInode F index), p.inode ∈ S) (h : InTree F index) : index ∈ S := by
  induction h with
  | root => exact hroot
  | entry _ htype hp ih => exact hlive _ ih htype _ hp

/-- An image whose directories lead from the root directory to the inodes of `S` only. -/
structure FewInodes (F : FileSystem) (S : List ℕ) : Prop where
  superblock : F.superblock = F.blockDevice.read 2
  device : F.blockDevice.blockSize = 512
  signature : signature F = 0xEF53
  size : field F.superblock.toList 24 4 ≤ 6
  root : inodeType (diskInode F 2) = 0x4000
  mem : 2 ∈ S
  live : ∀ index ∈ S, inodeType (diskInode F index) = 0x4000 →
    ∀ p ∈ liveEntries F (diskInode F index), p.inode ∈ S
  types : ∀ index ∈ S,
    inodeType (diskInode F index) = 0x4000 ∨ inodeType (diskInode F index) = 0x8000
  entries : ∀ index ∈ S, inodeType (diskInode F index) = 0x4000 →
    ∀ i < 12, (blockEntries F (diskInode F index) i).isSome
  reads : ∀ index ∈ S, 1 ≤ index ∧
    (inodeAt F index).toOption.map (List.take 128) = some (diskInode F index)

theorem FewInodes.wellFormed {S : List ℕ} (h : FewInodes F S) : WellFormed F where
  device := h.device
  superblock := h.superblock
  signature := h.signature
  size := h.size
  root := h.root
  type index hin := h.types index (hin.subset h.mem h.live)
  entries index hin := h.entries index (hin.subset h.mem h.live)

theorem FewInodes.readsInode {S : List ℕ} (h : FewInodes F S) (hin : InTree F index) :
    ReadsInode F index := by
  obtain ⟨hpos, hread⟩ := h.reads index (hin.subset h.mem h.live)
  exact readsInode_of hpos hread

end Cutesugar.Kernel.Fs
