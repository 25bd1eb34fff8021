import Cutesugar.Kernel.Fs.Ext2Image
import Cutesugar.Kernel.Fs.Ext2Safety

/-!
# The place of an inode

`ReadInode` takes the group descriptors from byte 2048 of the disk, computes the place of the inode
table in 32 bits, and keeps sixteen descriptors and 16 KiB of the table.

- `Names`, `Located`: where an inode is by the format, and that `ReadInode` returns it.
- `InBuffers`: the descriptor and the whole inode are in what was read.
- `located_iff`: the block sizes and tables for which the place is right on every disk.
- `inBuffers_iff`: the superblocks for which the buffers are large enough.
-/

namespace Cutesugar.Kernel.Fs

open Lib

/-! ## The format -/

section Format

variable (F : FileSystem)

def totalInodes : ℕ := field F.superblock.toList 0 4

/-- The group of an inode. -/
def groupOf (index : ℕ) : ℕ := (index - 1) / inodesPerGroup F

/-- The place of an inode in the table of its group. -/
def tableOffset (index : ℕ) : ℕ := (index - 1) % inodesPerGroup F * inodeSize F

/-- The byte the table of the group descriptors starts at: that of the block behind the one with
byte 1024, where the superblock is. -/
def descriptorTable : ℕ := (1024 / blockSize F + 1) * blockSize F

/-- The descriptor of the group of an inode names a block as the inode table. -/
def Names (index table : ℕ) : Prop :=
  field (diskBytes F.blockDevice (descriptorTable F + 32 * groupOf F index) 32) 8 4 = table

/-- `ReadInode` returns a pointer to the inode as it is in the inode table. -/
def Located (index table : ℕ) : Prop :=
  ∀ s, ∃ rest s', readInode F s index =
    .ok (some (diskBytes F.blockDevice (table * blockSize F + tableOffset F index) (inodeSize F) ++
      rest), s')

/-- The descriptor is one of those that were read, and `ReadInode` returns a pointer to an inode
that is in its buffer as a whole. -/
def InBuffers (index : ℕ) : Prop :=
  32 * groupOf F index + 32 ≤ 512 ∧
    ∀ s, ∃ bytes s', readInode F s index = .ok (some bytes, s') ∧ inodeSize F ≤ bytes.length

/-- A superblock of the format: blocks of 1 to 64 KiB, groups of one size, and inodes whose size is
a power of two from 128 bytes to that of a block. -/
structure SuperblockFormed : Prop where
  signature : signature F = 0xEF53
  size : field F.superblock.toList 24 4 ≤ 6
  groups : 0 < inodesPerGroup F
  inodes : ∃ n, 0 < n ∧ totalInodes F = n * inodesPerGroup F
  inodeSize : ∃ n, 7 ≤ n ∧ inodeSize F = 2 ^ n ∧ inodeSize F ≤ blockSize F

end Format

/-! ## Bytes of a disk -/

section Bytes

variable {bd : BlockDevice} {start n k : ℕ}

theorem diskBytes_drop (hk : k ≤ n) :
    (diskBytes bd start n).drop k = diskBytes bd (start + k) (n - k) := by
  apply List.ext_getElem?
  intro i
  rw [List.getElem?_drop]
  by_cases hi : k + i < n
  · rw [getElem?_diskBytes bd hi, getElem?_diskBytes bd (by omega), Nat.add_assoc]
  · rw [List.getElem?_eq_none (by rw [length_diskBytes]; omega),
      List.getElem?_eq_none (by rw [length_diskBytes]; omega)]

theorem diskBytes_take (hk : k ≤ n) : (diskBytes bd start n).take k = diskBytes bd start k := by
  apply List.ext_getElem?
  intro i
  by_cases hi : i < k
  · rw [List.getElem?_take_of_lt hi, getElem?_diskBytes bd (by omega), getElem?_diskBytes bd hi]
  · rw [List.getElem?_eq_none (by rw [List.length_take, length_diskBytes]; omega),
      List.getElem?_eq_none (by rw [length_diskBytes]; omega)]

/-- Whole sectors are bytes of the disk. -/
theorem sectors_eq_diskBytes (bd : BlockDevice) (hstart : start % 512 = 0) :
    ((List.range n).flatMap fun i => (bd.read (start / 512 + i)).toList) =
      diskBytes bd start (512 * n) := by
  have hlen : ∀ i, (bd.read (start / 512 + i)).toList.length = 512 := fun i =>
    List.Vector.toList_length _
  apply List.ext_getElem?
  intro k
  by_cases hk : k < 512 * n
  · have hsector : (start + k) / 512 = start / 512 + k / 512 := by omega
    have hplace : (start + k) % 512 = k % 512 := by omega
    rw [getElem?_flatMap_range hlen hk, getElem?_diskBytes bd hk, hsector, hplace]
  · rw [List.getElem?_eq_none, List.getElem?_eq_none (by rw [length_diskBytes]; omega)]
    rw [List.length_flatMap]
    simp
    omega

end Bytes

/-! ## What `ReadInode` reads -/

section Read

variable {F : FileSystem} {index table : ℕ}

/-- The block `ReadInode` takes for the inode table: the one named by the descriptors at byte
2048. -/
def tableRead (F : FileSystem) (index : ℕ) : ℕ :=
  field (diskBytes F.blockDevice (2048 + 32 * groupOf F index) 32) 8 4

theorem readInode_of_le {s : Ext2State} (hindex : 1 ≤ index) {bytes : List UInt8}
    (h : inodeAt F index = .ok bytes) : readInode F s index = .ok (some bytes, s.skip 2) := by
  have hnot : ¬ index < 1 := by omega
  simp only [readInode, if_neg hnot, h, bind, Except.bind]

/-- The size of a block is a multiple of the size of a sector. -/
theorem blockSize_mod (h : field F.superblock.toList 24 4 < 22) : blockSize F % 1024 = 0 := by
  rw [blockSize_eq h]
  exact Nat.mul_mod_right ..

/-- **Specification of `ReadInode`** on sectors of 512 bytes: the bytes from the inode to the end of
16 KiB, at a place computed in 32 bits. -/
theorem inodeAt_eq (hdevice : F.blockDevice.blockSize = 512)
    (hsize : field F.superblock.toList 24 4 < 22) (hgroups : 0 < inodesPerGroup F)
    (hgroup : groupOf F index < 16) :
    inodeAt F index = .ok ((diskBytes F.blockDevice (tableRead F index * blockSize F % 2 ^ 32)
      0x4000).drop (tableOffset F index)) := by
  have hsector : (F.blockDevice.read 4).toList = diskBytes F.blockDevice 2048 512 := by
    have hone := sectors_eq_diskBytes (n := 1) F.blockDevice (show 2048 % 512 = 0 by decide)
    simpa using hone
  have hdescriptor : readField ((F.blockDevice.read 4).toList.drop (32 * groupOf F index)) 8 4 =
      .ok (tableRead F index) := by
    rw [hsector, diskBytes_drop (by omega), readField_of_le (by rw [length_diskBytes]; omega)]
    apply congrArg
    apply field_congr
    rw [diskBytes_drop (by omega), diskBytes_drop (by omega), diskBytes_take (by omega),
      diskBytes_take (by omega)]
  have hstart : tableRead F index * blockSize F % 2 ^ 32 % 512 = 0 := by
    have hmod := blockSize_mod hsize
    have hmul : tableRead F index * blockSize F % 512 = 0 := by
      rw [Nat.mul_mod, show blockSize F % 512 = 0 by omega]
      rfl
    omega
  have hbuffer := sectors_eq_diskBytes (n := 32) F.blockDevice hstart
  have hplace : divide 2048 512 = .ok 4 := rfl
  have hgroup' : divide (index - 1) (inodesPerGroup F) = .ok (groupOf F index) := by
    rw [divide, if_neg (by omega)]
    rfl
  have hlocation (x : ℕ) : divide x 512 = .ok (x / 512) := rfl
  simp only [inodeAt, hdevice, hplace, hgroup', hlocation, bind, Except.bind]
  rw [hdescriptor]
  simp only [hbuffer]
  rfl

/-- The inode returned is the right one exactly when the bytes at the two places agree. -/
theorem located_iff_bytes (hdevice : F.blockDevice.blockSize = 512)
    (hsize : field F.superblock.toList 24 4 < 22) (hgroups : 0 < inodesPerGroup F)
    (hindex : 1 ≤ index) (hgroup : groupOf F index < 16)
    (hinode : tableOffset F index + inodeSize F ≤ 0x4000) :
    Located F index table ↔
      diskBytes F.blockDevice (table * blockSize F + tableOffset F index) (inodeSize F) =
        diskBytes F.blockDevice (tableRead F index * blockSize F % 2 ^ 32 + tableOffset F index)
          (inodeSize F) := by
  have hread : inodeAt F index = _ := inodeAt_eq hdevice hsize hgroups hgroup
  rw [diskBytes_drop (by omega)] at hread
  constructor
  · intro h
    obtain ⟨rest, s', heq⟩ := h bootExt2
    rw [readInode_of_le hindex hread] at heq
    have hlist := Option.some.inj (Prod.mk.inj (Except.ok.inj heq)).1
    have htake := congrArg (List.take (inodeSize F)) hlist
    rw [diskBytes_take (by omega), List.take_append_of_le_length (by rw [length_diskBytes]),
      diskBytes_take le_rfl] at htake
    exact htake.symm
  · intro h s
    have hsplit := List.take_append_drop (inodeSize F) (diskBytes F.blockDevice
      (tableRead F index * blockSize F % 2 ^ 32 + tableOffset F index)
      (0x4000 - tableOffset F index))
    rw [diskBytes_take (by omega)] at hsplit
    refine ⟨(diskBytes F.blockDevice (tableRead F index * blockSize F % 2 ^ 32 +
      tableOffset F index) (0x4000 - tableOffset F index)).drop (inodeSize F), s.skip 2, ?_⟩
    rw [h, hsplit, readInode_of_le hindex hread]

end Read

/-! ## Disks on which the two places differ -/

section Disks

theorem sectorSize_small : 512 < 2 ^ 16 := by decide

/-- The device with these bytes. -/
def deviceOf (byte : ℕ → UInt8) : BlockDevice where
  blockSize := 512
  small := sectorSize_small
  read n := List.Vector.ofFn fun k : Fin 512 => byte (512 * n + k)

theorem getElem?_deviceOf (byte : ℕ → UInt8) {start n k : ℕ} (hk : k < n) :
    (diskBytes (deviceOf byte) start n)[k]? = some (byte (start + k)) := by
  have hplace : (start + k) % 512 < 512 := Nat.mod_lt _ (by decide)
  rw [getElem?_diskBytes _ hk, List.getElem?_eq_getElem (by rw [List.Vector.toList_length]; exact hplace)]
  simp only [deviceOf, List.Vector.toList_ofFn, List.getElem_ofFn, Option.some.injEq]
  rw [Nat.div_add_mod]

/-- A field of four bytes of a descriptor. -/
theorem field_deviceOf (byte : ℕ → UInt8) (start : ℕ) {x : ℕ} (hx : x < 2 ^ 32)
    (hbyte : ∀ k < 4, byte (start + 8 + k) = UInt8.ofNat (x / 256 ^ k)) :
    field (diskBytes (deviceOf byte) start 32) 8 4 = x := by
  have hbytes : ((diskBytes (deviceOf byte) start 32).drop 8).take 4 =
      (List.range 4).map fun k => UInt8.ofNat (x / 256 ^ k) := by
    rw [diskBytes_drop (by decide), diskBytes_take (by decide)]
    apply List.ext_getElem?
    intro k
    by_cases hk : k < 4
    · rw [getElem?_deviceOf byte hk, hbyte k hk, List.getElem?_map, List.getElem?_range hk]
      rfl
    · rw [List.getElem?_eq_none (by rw [length_diskBytes]; omega),
        List.getElem?_eq_none (by simp; omega)]
  have hdigit (k : ℕ) : (UInt8.ofNat (x / 256 ^ k)).toNat = x / 256 ^ k % 256 := rfl
  rw [field, hbytes]
  simp only [List.range_succ, List.range_zero, List.nil_append, List.cons_append, List.map_cons,
    List.map_nil, littleEndian, hdigit]
  omega

variable (superblock : List.Vector UInt8 512) (place group table decoy x y : ℕ)

/-- The bytes of a disk with a superblock, a descriptor at its proper place that names `table`, and
at byte 2048 one that names `decoy`. -/
def plainByte (a : ℕ) : UInt8 :=
  if h : 1024 ≤ a ∧ a < 1536 then superblock.get ⟨a - 1024, by omega⟩
  else if place + 32 * group + 8 ≤ a ∧ a < place + 32 * group + 12 then
    UInt8.ofNat (table / 256 ^ (a - (place + 32 * group + 8)))
  else if 2048 + 32 * group + 8 ≤ a ∧ a < 2048 + 32 * group + 12 then
    UInt8.ofNat (decoy / 256 ^ (a - (2048 + 32 * group + 8)))
  else 0

/-- That disk, with byte `x` made different from byte `y`. -/
def trapDisk : BlockDevice :=
  let byte := plainByte superblock place group table decoy
  deviceOf (Function.update byte x (byte y + 1))

variable {superblock place group table decoy x y}

/-- What the format and `ReadInode` find on the disk, with the changed byte behind the superblock
and in no field of a descriptor. -/
theorem trapDisk_spec (hgroup : group < 16) (htable : table < 2 ^ 32) (hdecoy : decoy < 2 ^ 32)
    (hplace : place = 2048 ∧ decoy = table ∨ 4096 ≤ place ∧ place % 32 = 0) (hx : 1536 ≤ x)
    (hmod : x % 32 = 0) :
    (trapDisk superblock place group table decoy x y).read 2 = superblock ∧
    field (diskBytes (trapDisk superblock place group table decoy x y)
      (place + 32 * group) 32) 8 4 = table ∧
    field (diskBytes (trapDisk superblock place group table decoy x y)
      (2048 + 32 * group) 32) 8 4 = decoy := by
  refine ⟨?_, ?_, ?_⟩
  · apply List.Vector.ext
    intro k
    have hk := k.isLt
    simp only [trapDisk, deviceOf, List.Vector.get_ofFn]
    rw [Function.update_of_ne (by omega), plainByte, dif_pos (by omega)]
    exact congrArg superblock.get (Fin.ext (Nat.add_sub_cancel_left ..))
  · apply field_deviceOf _ _ htable
    intro k hk
    rw [Function.update_of_ne (by omega), plainByte, dif_neg (by omega), if_pos (by omega)]
    congr 3
    omega
  · apply field_deviceOf _ _ hdecoy
    intro k hk
    rw [Function.update_of_ne (by omega), plainByte, dif_neg (by omega)]
    rcases hplace with ⟨rfl, rfl⟩ | ⟨hbehind, -⟩
    · rw [if_pos (by omega)]
      congr 3
      omega
    · rw [if_neg (by omega), if_pos (by omega)]
      congr 3
      omega

/-- Bytes from `x` and from `y` on differ in the first one. -/
theorem trapDisk_ne {start start' n d : ℕ} (hd : d < n) (hx : start + d = x) (hy : start' + d = y)
    (hne : x ≠ y) :
    diskBytes (trapDisk superblock place group table decoy x y) start n ≠
      diskBytes (trapDisk superblock place group table decoy x y) start' n := by
  intro heq
  have hbyte := congrArg (fun bytes => bytes[d]?) heq
  simp only [trapDisk] at hbyte
  rw [getElem?_deviceOf _ hd, getElem?_deviceOf _ hd, hx, hy, Function.update_self,
    Function.update_of_ne hne.symm] at hbyte
  have hnat := congrArg UInt8.toNat (Option.some.inj hbyte)
  rw [UInt8.toNat_add, UInt8.toNat_one] at hnat
  omega

end Disks

/-! ## Inodes that are found -/

section Place

variable {F : FileSystem} {index table : ℕ}

/-- The descriptors are where `ReadInode` takes them from if the blocks have 1 or 2 KiB. -/
theorem descriptorTable_cases (hsize : field F.superblock.toList 24 4 < 22) :
    blockSize F ≤ 2048 ∧ descriptorTable F = 2048 ∨
      4096 ≤ blockSize F ∧ descriptorTable F = blockSize F := by
  have hblock := blockSize_eq hsize
  unfold descriptorTable
  generalize field F.superblock.toList 24 4 = n at hblock
  match n with
  | 0 =>
    rw [hblock]
    decide
  | 1 =>
    rw [hblock]
    decide
  | n + 2 =>
    right
    have hle : 4096 ≤ blockSize F := by
      have hpow := Nat.one_le_two_pow (n := n)
      rw [hblock, pow_add]
      omega
    rw [Nat.div_eq_of_lt (by omega), Nat.zero_add, Nat.one_mul]
    exact ⟨hle, rfl⟩

/-- Some byte of the inode is at a multiple of 32. -/
theorem exists_marked (F : FileSystem) (index : ℕ) (hinode : 128 ≤ inodeSize F) :
    ∃ d < inodeSize F, (tableOffset F index + d) % 32 = 0 :=
  ⟨(32 - tableOffset F index % 32) % 32, by omega, by omega⟩

/-- A disk on which `ReadInode` does not return the inode. -/
theorem exists_not_located {decoy x y : ℕ} (hsize : field F.superblock.toList 24 4 < 22)
    (hgroups : 0 < inodesPerGroup F) (hindex : 1 ≤ index) (hgroup : groupOf F index < 16)
    (hinode : tableOffset F index + inodeSize F ≤ 0x4000) (htable : table < 2 ^ 32)
    (hdecoy : decoy < 2 ^ 32)
    (hplace : descriptorTable F = 2048 ∧ decoy = table ∨
      4096 ≤ descriptorTable F ∧ descriptorTable F % 32 = 0)
    (hx : 1536 ≤ x) (hmod : x % 32 = 0) (hne : x ≠ y) {d : ℕ} (hd : d < inodeSize F)
    (hplaces : table * blockSize F + tableOffset F index + d = x ∧
        decoy * blockSize F % 2 ^ 32 + tableOffset F index + d = y ∨
      table * blockSize F + tableOffset F index + d = y ∧
        decoy * blockSize F % 2 ^ 32 + tableOffset F index + d = x) :
    let disk := trapDisk F.superblock (descriptorTable F) (groupOf F index) table decoy x y
    disk.blockSize = 512 ∧ disk.read 2 = F.superblock ∧
      Names { F with blockDevice := disk } index table ∧
      ¬ Located { F with blockDevice := disk } index table := by
  intro disk
  obtain ⟨hread, hnames, hdecoyed⟩ : disk.read 2 = F.superblock ∧
      field (diskBytes disk (descriptorTable F + 32 * groupOf F index) 32) 8 4 = table ∧
      field (diskBytes disk (2048 + 32 * groupOf F index) 32) 8 4 = decoy :=
    trapDisk_spec hgroup htable hdecoy hplace hx hmod
  refine ⟨rfl, hread, hnames, fun hlocated => ?_⟩
  have hbytes := (located_iff_bytes (F := { F with blockDevice := disk }) rfl hsize hgroups hindex
    hgroup hinode).mp hlocated
  have htableRead : tableRead { F with blockDevice := disk } index = decoy := hdecoyed
  rw [htableRead] at hbytes
  rcases hplaces with ⟨hright, hwrong⟩ | ⟨hright, hwrong⟩
  · exact trapDisk_ne hd hright hwrong hne hbytes
  · exact trapDisk_ne hd hwrong hright hne hbytes.symm

/-- **Inode location**: on every disk with the superblock and the descriptor, `ReadInode` returns the
inode, if the blocks have at most 2 KiB and the place of the table is a number of 32 bits; else there
is a disk on which it returns something else. -/
theorem located_iff (F : FileSystem) (index table : ℕ)
    (hsize : field F.superblock.toList 24 4 < 22) (hgroups : 0 < inodesPerGroup F)
    (hinodeSize : 128 ≤ inodeSize F) (htable : table < 2 ^ 32) (hindex : 1 ≤ index)
    (hgroup : groupOf F index < 16) (hinode : tableOffset F index + inodeSize F ≤ 0x4000) :
    (∀ bd : BlockDevice, bd.blockSize = 512 → bd.read 2 = F.superblock →
      Names { F with blockDevice := bd } index table →
        Located { F with blockDevice := bd } index table) ↔
      blockSize F ≤ 2048 ∧ table * blockSize F < 2 ^ 32 := by
  obtain ⟨d, hd, hmod⟩ := exists_marked F index hinodeSize
  have hsector := blockSize_mod hsize
  have hmul (n : ℕ) : n * blockSize F % 32 = 0 := by
    rw [Nat.mul_mod, show blockSize F % 32 = 0 by omega]
    rfl
  have hblock : 1024 ≤ blockSize F := by
    rw [blockSize_eq hsize]
    exact Nat.le_mul_of_pos_right _ (Nat.two_pow_pos _)
  constructor
  · intro hall
    by_contra hbad
    -- it is enough that the two places differ on some disk
    suffices h : ∃ decoy x y, decoy < 2 ^ 32 ∧ (descriptorTable F = 2048 ∧ decoy = table ∨
        4096 ≤ descriptorTable F ∧ descriptorTable F % 32 = 0) ∧ 1536 ≤ x ∧ x % 32 = 0 ∧ x ≠ y ∧
        (table * blockSize F + tableOffset F index + d = x ∧
            decoy * blockSize F % 2 ^ 32 + tableOffset F index + d = y ∨
          table * blockSize F + tableOffset F index + d = y ∧
            decoy * blockSize F % 2 ^ 32 + tableOffset F index + d = x) by
      obtain ⟨decoy, x, y, hdecoy, hplace, hx, hxmod, hne, hplaces⟩ := h
      obtain ⟨hdevice, hread, hnames, hnot⟩ := exists_not_located hsize hgroups hindex hgroup hinode
        htable hdecoy hplace hx hxmod hne hd hplaces
      exact hnot (hall _ hdevice hread hnames)
    have hright := hmul table
    rcases descriptorTable_cases hsize with ⟨hle, hplace⟩ | ⟨hge, hplace⟩
    · -- the product is cut
      have hwrap : 2 ^ 32 ≤ table * blockSize F := by
        by_contra hlt
        exact hbad ⟨hle, by omega⟩
      exact ⟨table, _, _, htable, .inl ⟨hplace, rfl⟩, by omega, by omega, by omega,
        .inl ⟨rfl, rfl⟩⟩
    · have hplace' : 4096 ≤ descriptorTable F ∧ descriptorTable F % 32 = 0 := by
        rw [hplace]
        omega
      rcases Nat.eq_zero_or_pos table with hzero | hpos
      · -- the table is at the start of the disk, so the decoy is block 1
        subst hzero
        have hfit : 1 * blockSize F % 2 ^ 32 = blockSize F := by
          rw [Nat.one_mul]
          exact Nat.mod_mod ..
        exact ⟨1, _, _, by decide, .inr hplace', by omega, by omega, by omega, .inr ⟨rfl, rfl⟩⟩
      · have hfar : 4096 ≤ table * blockSize F :=
          hge.trans (Nat.le_mul_of_pos_left _ hpos)
        have hnull : 0 * blockSize F % 2 ^ 32 = 0 := by
          rw [Nat.zero_mul, Nat.zero_mod]
        exact ⟨0, _, _, by decide, .inr hplace', by omega, by omega, by omega, .inl ⟨rfl, rfl⟩⟩
  · rintro ⟨hle, hlt⟩ bd hdevice - hnames
    have hplace : descriptorTable F = 2048 := by
      rcases descriptorTable_cases hsize with ⟨-, hplace⟩ | ⟨hge, -⟩
      · exact hplace
      · omega
    have htableRead : tableRead { F with blockDevice := bd } index = table := by
      have hsame : descriptorTable { F with blockDevice := bd } = 2048 := hplace
      rw [Names, hsame] at hnames
      exact hnames
    apply (located_iff_bytes (F := { F with blockDevice := bd }) hdevice hsize hgroups hindex hgroup
      hinode).mpr
    have hfit : table * blockSize { F with blockDevice := bd } % 2 ^ 32 =
        table * blockSize { F with blockDevice := bd } := Nat.mod_eq_of_lt hlt
    rw [htableRead, hfit]

end Place

/-! ## Inodes behind the buffers -/

section Buffers

variable {F : FileSystem} {index : ℕ}

/-- What `ReadInode` returns is in its buffers exactly if the descriptor and the inode are. -/
theorem inBuffers_iff_of_pos (hdevice : F.blockDevice.blockSize ≠ 0)
    (hgroups : 0 < inodesPerGroup F) (hinode : 0 < inodeSize F) (hindex : 1 ≤ index) :
    InBuffers F index ↔ groupOf F index < 16 ∧ tableOffset F index + inodeSize F ≤ 0x4000 := by
  constructor
  · rintro ⟨hdescriptor, hread⟩
    refine ⟨by omega, ?_⟩
    obtain ⟨bytes, s', heq, hle⟩ := hread bootExt2
    obtain ⟨object, hobject⟩ : ∃ object, inodeAt F index = .ok object :=
      inodeAt_isOk_iff.mpr ⟨hdevice, hgroups.ne', show groupOf F index < 16 by omega⟩
    rw [readInode_of_le hindex hobject] at heq
    obtain rfl := Option.some.inj (Prod.mk.inj (Except.ok.inj heq)).1
    rw [length_inodeAt hobject] at hle
    change inodeSize F ≤ 0x4000 - tableOffset F index at hle
    omega
  · rintro ⟨hgroup, hle⟩
    refine ⟨by omega, fun s => ?_⟩
    obtain ⟨object, hobject⟩ : ∃ object, inodeAt F index = .ok object :=
      inodeAt_isOk_iff.mpr ⟨hdevice, hgroups.ne', hgroup⟩
    refine ⟨object, _, readInode_of_le hindex hobject, ?_⟩
    rw [length_inodeAt hobject]
    change inodeSize F ≤ 0x4000 - tableOffset F index
    omega

theorem SuperblockFormed.inodeSize_pos (h : SuperblockFormed F) : 0 < Fs.inodeSize F := by
  obtain ⟨n, -, hsize, -⟩ := h.inodeSize
  rw [hsize]
  exact Nat.two_pow_pos n

/-- **Inode buffers**: every inode of the file system is in the buffers of `ReadInode`, exactly if
there are at most sixteen groups and the inode table of a group has at most 16 KiB. -/
theorem inBuffers_iff (F : FileSystem) (h : SuperblockFormed F)
    (hdevice : F.blockDevice.blockSize ≠ 0) :
    (∀ index, 1 ≤ index → index ≤ totalInodes F → InBuffers F index) ↔
      totalInodes F ≤ 16 * inodesPerGroup F ∧ inodesPerGroup F * inodeSize F ≤ 0x4000 := by
  have hgroups := h.groups
  obtain ⟨n, hn, htotal⟩ := h.inodes
  have hfirst : inodesPerGroup F ≤ totalInodes F := by
    rw [htotal]
    exact Nat.le_mul_of_pos_left _ hn
  constructor
  · intro hall
    constructor
    · -- the last inode is in the last group
      obtain ⟨hgroup, -⟩ := (inBuffers_iff_of_pos hdevice hgroups h.inodeSize_pos
        (hgroups.trans_le hfirst)).mp (hall _ (hgroups.trans_le hfirst) le_rfl)
      have hlt := (Nat.div_lt_iff_lt_mul hgroups).mp hgroup
      omega
    · -- the last inode of the first group is at the end of its table
      obtain ⟨-, hle⟩ := (inBuffers_iff_of_pos hdevice hgroups h.inodeSize_pos hgroups).mp
        (hall _ hgroups hfirst)
      rw [tableOffset, Nat.mod_eq_of_lt (by omega)] at hle
      have hsplit : (inodesPerGroup F - 1) * inodeSize F + inodeSize F =
          inodesPerGroup F * inodeSize F := by
        rw [← Nat.succ_mul, Nat.succ_eq_add_one, Nat.sub_add_cancel hgroups]
      omega
  · rintro ⟨hcount, hsize⟩ index hindex hle
    apply (inBuffers_iff_of_pos hdevice hgroups h.inodeSize_pos hindex).mpr
    constructor
    · exact (Nat.div_lt_iff_lt_mul hgroups).mpr (by omega)
    · have hmod := Nat.mod_lt (index - 1) hgroups
      calc tableOffset F index + inodeSize F
          = ((index - 1) % inodesPerGroup F + 1) * inodeSize F := (Nat.succ_mul ..).symm
        _ ≤ inodesPerGroup F * inodeSize F := Nat.mul_le_mul_right _ hmod
        _ ≤ 0x4000 := hsize

end Buffers

/-! ## File systems of one group -/

/-- The superblock of one group: blocks of `1024 << log` bytes, and inodes of 128 bytes. -/
def oneGroup (log low high : UInt8) : List.Vector UInt8 512 :=
  sectorFrom ([low, high] ++ List.replicate 22 0 ++ [log] ++ List.replicate 15 0 ++ [low, high] ++
    List.replicate 14 0 ++ [0x53, 0xEF] ++ List.replicate 30 0 ++ [128])

theorem superblockFormed_of {F : FileSystem} (hsignature : signature F = 0xEF53)
    (hsize : field F.superblock.toList 24 4 ≤ 6) (hgroups : 0 < inodesPerGroup F)
    (hinodes : totalInodes F = inodesPerGroup F) (hinodeSize : inodeSize F = 128) :
    SuperblockFormed F where
  signature := hsignature
  size := hsize
  groups := hgroups
  inodes := ⟨1, Nat.one_pos, by rw [hinodes, Nat.one_mul]⟩
  inodeSize := by
    have hblock : 128 ≤ blockSize F := by
      rw [blockSize_eq (hsize.trans_lt (by decide))]
      have := Nat.two_pow_pos (field F.superblock.toList 24 4)
      omega
    exact ⟨7, le_rfl, hinodeSize, hinodeSize.trans_le hblock⟩

/-- Inode 2 of a disk with blocks of 1 KiB, where its table is block 5, is located, and with blocks of
4 KiB there is a disk on which it is not. -/
theorem located_small :
    Located (onDisk (diskWith [] [])) 2 5 ∧
    ¬ ∀ bd : BlockDevice, bd.blockSize = 512 → bd.read 2 = oneGroup 2 16 0 →
      Names ⟨oneGroup 2 16 0, bd⟩ 2 5 → Located ⟨oneGroup 2 16 0, bd⟩ 2 5 := by
  have hsmall := located_iff (onDisk (diskWith [] [])) 2 5 (by decide) (by decide) (by decide)
    (by decide) (by decide) (by decide) (by decide)
  have hlarge := located_iff ⟨oneGroup 2 16 0, diskWith [] []⟩ 2 5 (by decide) (by decide)
    (by decide) (by decide) (by decide) (by decide) (by decide)
  have hnames : Names (onDisk (diskWith [] [])) 2 5 := by
    unfold Names
    decide
  exact ⟨hsmall.mpr ⟨by decide, by decide⟩ (diskWith [] []) rfl rfl hnames,
    fun hall => absurd (hlarge.mp hall).1 (by decide)⟩

/-- A disk with blocks of 4 KiB: the descriptors are in block 1 and the inode table is block 5, but
what is at byte 2048 is null. -/
def largeBlocks : FileSystem where
  superblock := oneGroup 2 16 0
  blockDevice := trapDisk (oneGroup 2 16 0) 4096 0 5 0 (5 * 4096 + 128) 128

/-- The first byte of inode 2 is 1 on the disk, and 0 where `ReadInode` takes it from. -/
theorem largeBlocks_not_located : SuperblockFormed largeBlocks ∧
    largeBlocks.blockDevice.blockSize = 512 ∧
    largeBlocks.blockDevice.read 2 = largeBlocks.superblock ∧ groupOf largeBlocks 2 < 16 ∧
    tableOffset largeBlocks 2 + inodeSize largeBlocks ≤ 0x4000 ∧ Names largeBlocks 2 5 ∧
    ¬ Located largeBlocks 2 5 := by
  have hformed : SuperblockFormed largeBlocks := superblockFormed_of (by decide)
    (by decide) (by decide) (by decide) (by decide)
  have hgroup : groupOf largeBlocks 2 < 16 := by decide
  have hinode : tableOffset largeBlocks 2 + inodeSize largeBlocks ≤ 0x4000 := by decide
  have hplace : descriptorTable largeBlocks = 4096 := by decide
  have hzero : groupOf largeBlocks 2 = 0 := by decide
  have hx : 5 * blockSize largeBlocks + tableOffset largeBlocks 2 + 0 = 5 * 4096 + 128 := by
    decide
  have hy : 0 * blockSize largeBlocks % 2 ^ 32 + tableOffset largeBlocks 2 + 0 = 128 := by
    decide
  obtain ⟨hdevice, hread, hnames, hnot⟩ := exists_not_located
    (hformed.size.trans_lt (by decide)) hformed.groups (by decide) hgroup hinode (by decide)
    (show 0 < 2 ^ 32 by decide) (.inr (by rw [hplace]; decide)) (by decide) (by decide) (by decide)
    hformed.inodeSize_pos (.inl ⟨hx, hy⟩)
  rw [hplace, hzero] at hnames hnot
  exact ⟨hformed, rfl, hread, hgroup, hinode, hnames, hnot⟩

/-- Eight inodes: all of them are in the buffers. -/
theorem inBuffers_eight :
    totalInodes ⟨oneGroup 0 8 0, diskWith [] []⟩ = 8 ∧
    ∀ index, 1 ≤ index → index ≤ 8 → InBuffers ⟨oneGroup 0 8 0, diskWith [] []⟩ index := by
  have htotal : totalInodes ⟨oneGroup 0 8 0, diskWith [] []⟩ = 8 := by decide
  have hall := (inBuffers_iff ⟨oneGroup 0 8 0, diskWith [] []⟩
    (superblockFormed_of (by decide) (by decide) (by decide) (by decide) (by decide))
    (by decide)).mpr ⟨by decide, by decide⟩
  rw [htotal] at hall
  exact ⟨htotal, hall⟩

/-- Inode 129 of 256 in one group starts where the buffer of the table ends. -/
theorem inode_behind_buffer :
    SuperblockFormed ⟨oneGroup 0 0 1, diskWith [] []⟩ ∧
    129 ≤ totalInodes ⟨oneGroup 0 0 1, diskWith [] []⟩ ∧
    ¬ InBuffers ⟨oneGroup 0 0 1, diskWith [] []⟩ 129 := by
  have hformed : SuperblockFormed ⟨oneGroup 0 0 1, diskWith [] []⟩ := superblockFormed_of
    (by decide) (by decide) (by decide) (by decide)
    (by decide)
  refine ⟨hformed, by decide, fun h => ?_⟩
  have hle := ((inBuffers_iff_of_pos (by decide) hformed.groups hformed.inodeSize_pos
    (by decide)).mp h).2
  exact absurd hle (by decide)

end Cutesugar.Kernel.Fs
