import Cutesugar.Kernel.Fs.Ext2Children

/-!
# Reading a file of an ext2 image

`Ext2ReadByte` splits the offset by blocks, but reads one sector: the first of the block. It follows
a pointer that is null like any other, and the place of a block on the disk is a product in 32 bits.

- `fileByte`: the byte that is on the disk.
- `Readable`: offsets at which these are no matter.
- `ext2_read_iff`: the offsets at which `Ext2ReadByte` returns the byte on the disk.
-/

namespace Cutesugar.Kernel.Fs

open Lib

variable (F : FileSystem)

/-- The byte of a file at an offset in its direct blocks: that of the block which the direct pointer
names, and 0 in a hole. -/
def fileByte (inode : List UInt8) (offset : ℕ) : UInt8 :=
  let pointer := directBlock inode (offset / blockSize F)
  if pointer = 0 then 0
  else
    (diskBytes F.blockDevice (pointer * blockSize F) (blockSize F)).getD (offset % blockSize F) 0

/-- The offset is one in the first sector of its block. In a hole, the byte there of the first sector
of the disk is 0; elsewhere, the place of the block on the disk is a number of 32 bits, or the sector
at its remainder has the same byte. -/
def Readable (inode : List UInt8) (offset : ℕ) : Prop :=
  let pointer := directBlock inode (offset / blockSize F)
  let inBlock := offset % blockSize F
  let byteOf (place : ℕ) := (F.blockDevice.read (place / 512)).toList.getD inBlock 0
  inBlock < 512 ∧
    if pointer = 0 then byteOf 0 = 0
    else pointer * blockSize F < 2 ^ 32 ∨
      byteOf (pointer * blockSize F % 2 ^ 32) = byteOf (pointer * blockSize F)

instance (inode : List UInt8) (offset : ℕ) : Decidable (Readable F inode offset) := by
  unfold Readable
  infer_instance

variable {F} {s : Ext2State} {fo index offset : ℕ}

/-- What `Ext2ReadByte` does at an offset in the direct blocks. -/
theorem ext2ReadByte_eq (hF : s.fileSystems (s.files fo).connectedFs = F)
    (hdevice : F.blockDevice.blockSize = 512) (hindex : s.data fo = index) (h32 : index < 2 ^ 32)
    (hread : ReadsInode F index) (hlt : offset < 12 * blockSize F) :
    ext2ReadByte s fo offset =
      if h : offset % blockSize F < 512 then
        .ok ((F.blockDevice.read (directBlock (diskInode F index) (offset / blockSize F) *
          blockSize F % 2 ^ 32 / 512)).get ⟨offset % blockSize F, h⟩, s.skip 3)
      else .error .overread := by
  obtain ⟨hpos, rest, hinode⟩ := hread
  have hsize : blockSize F ≠ 0 := by omega
  have hblock : offset / blockSize F < 12 :=
    Nat.div_lt_of_lt_mul (Nat.mul_comm 12 (blockSize F) ▸ hlt)
  have hnot : ¬ index < 1 := by omega
  have htdiv : (offset : ℤ).tdiv (blockSize F) = ((offset / blockSize F : ℕ) : ℤ) :=
    (Int.ofNat_tdiv ..).symm
  have htmod : (offset : ℤ).tmod (blockSize F) = ((offset % blockSize F : ℕ) : ℤ) :=
    (Int.ofNat_tmod ..).symm
  have hdirect : ¬ (11 : ℤ) < ((offset / blockSize F : ℕ) : ℤ) := by omega
  have hfront : ¬ ((offset / blockSize F : ℕ) : ℤ) < 0 := Int.not_lt.mpr (Int.natCast_nonneg _)
  -- the pointer is one of the inode itself
  have hpointer : readField (diskInode F index ++ rest) (40 + 4 * (offset / blockSize F)) 4 =
      .ok (directBlock (diskInode F index) (offset / blockSize F)) := by
    have hlen := length_diskInode (F := F) index
    rw [readField_of_le (by rw [List.length_append]; omega), field_append (by omega)]
    rfl
  have hdivide (x : ℕ) : divide x 512 = .ok (x / 512) := rfl
  unfold ext2ReadByte
  simp only [hF, hindex, Nat.mod_eq_of_lt h32, readInode, if_neg hnot, hinode, hsize, if_false,
    htdiv, htmod, hdirect, hfront, Option.elim, Int.toNat_natCast, hpointer, hdevice, hdivide, bind,
    Except.bind, Int.natCast_nonneg, true_and, Nat.cast_lt_ofNat]

theorem getD_sector (bd : BlockDevice) {place k : ℕ} (hk : k < 512) :
    (bd.read place).toList.getD k 0 = (bd.read place).get ⟨k, hk⟩ := by
  rw [List.getD_eq_getElem?_getD, List.getElem?_eq_getElem (by rw [List.Vector.toList_length]; exact hk),
    List.Vector.get_eq_get_toList]
  rfl

/-- A byte in the first sector of a block. -/
theorem getD_block (bd : BlockDevice) (pointer : ℕ) {n k : ℕ} (hn : k < 512 * n) (hk : k < 512) :
    (diskBytes bd (pointer * (512 * n)) (512 * n)).getD k 0 =
      (bd.read (pointer * (512 * n) / 512)).toList.getD k 0 := by
  rw [List.getD_eq_getElem?_getD, List.getD_eq_getElem?_getD, getElem?_diskBytes bd hn]
  have hstart : pointer * (512 * n) = 512 * (pointer * n) := by ring
  have hsector : (512 * (pointer * n) + k) / 512 = 512 * (pointer * n) / 512 := by omega
  have hplace : (512 * (pointer * n) + k) % 512 = k := by omega
  rw [hstart, hsector, hplace]

/-- **Offsets at which the byte on the disk is returned**, of those in the direct blocks: the ones in
the first sector of a block, and in holes only those that have a 0 in the first sector of the
disk. -/
theorem ext2_read_iff (hF : s.fileSystems (s.files fo).connectedFs = F)
    (hdevice : F.blockDevice.blockSize = 512) (hsize : field F.superblock.toList 24 4 < 22)
    (hindex : s.data fo = index) (h32 : index < 2 ^ 32) (hread : ReadsInode F index)
    (hlt : offset < 12 * blockSize F) :
    (∃ s', ext2ReadByte s fo offset = .ok (fileByte F (diskInode F index) offset, s')) ↔
      Readable F (diskInode F index) offset := by
  have hblock : blockSize F = 512 * (2 * 2 ^ field F.superblock.toList 24 4) := by
    rw [blockSize_eq hsize]
    ring
  rw [ext2ReadByte_eq hF hdevice hindex h32 hread hlt, Readable]
  by_cases hin : offset % blockSize F < 512
  · rw [dif_pos hin, and_iff_right hin, ← getD_sector _ hin]
    have hreturns : (∃ s', (Except.ok ((F.blockDevice.read (directBlock (diskInode F index)
        (offset / blockSize F) * blockSize F % 2 ^ 32 / 512)).toList.getD (offset % blockSize F) 0,
        s.skip 3) : Except Fault (UInt8 × Ext2State)) =
          .ok (fileByte F (diskInode F index) offset, s')) ↔
        (F.blockDevice.read (directBlock (diskInode F index) (offset / blockSize F) *
          blockSize F % 2 ^ 32 / 512)).toList.getD (offset % blockSize F) 0 =
            fileByte F (diskInode F index) offset := by
      constructor
      · rintro ⟨s', heq⟩
        exact congrArg Prod.fst (Except.ok.inj heq)
      · exact fun heq => ⟨s.skip 3, by rw [heq]⟩
    rw [hreturns, fileByte]
    by_cases hnull : directBlock (diskInode F index) (offset / blockSize F) = 0
    · -- a hole: the first sector of the disk is read
      simp only [hnull, if_true, Nat.zero_mul, Nat.zero_mod]
    · have hmod : offset % blockSize F < blockSize F := Nat.mod_lt _ (by omega)
      have hbyte := getD_block F.blockDevice (directBlock (diskInode F index)
        (offset / blockSize F)) (hmod.trans_eq hblock) hin
      rw [← hblock] at hbyte
      simp only [hnull, if_false, hbyte]
      constructor
      · exact Or.inr
      · rintro (hsmall | heq)
        · rw [Nat.mod_eq_of_lt hsmall]
        · exact heq
  · rw [dif_neg hin]
    exact iff_of_false (by simp) fun hreadable => hin hreadable.1

/-! ## A small file -/

/-- The root directory, and inode 3, a regular file of 3072 bytes: block 7, block 7 again and a
hole. -/
def fileInodes : List UInt8 :=
  twoInodes 0x81 ++ [0, 0, 0, 12] ++ List.replicate 34 0 ++ [7, 0, 0, 0, 7, 0, 0, 0]

/-- A disk with a boot sector and one file. -/
def fileDisk : BlockDevice :=
  { diskWith fileInodes entryOfThree with
    read := fun n =>
      if n = 0 then sectorFrom [0xEB]
      else if n = 14 then sectorFrom [104, 105]
      else (diskWith fileInodes entryOfThree).read n }

def oneFile : FileSystem := onDisk fileDisk

-- the second block of the file is its first block again
example : fileByte oneFile (diskInode oneFile 3) 1024 = 104 := by decide +kernel

theorem oneFile_fewInodes : FewInodes oneFile [2, 3] := by
  refine ⟨rfl, rfl, ?_, ?_, ?_, ?_, ?_, ?_, ?_, ?_⟩ <;> decide +kernel

theorem oneFile_wellFormed : WellFormed oneFile := oneFile_fewInodes.wellFormed

/-- A kernel with the object of the file at `0x3000`. -/
def fileState : Ext2State where
  kernel := { bootKernel with objects := fun _ => ⟨⟨nameField [97] short_a, 0⟩, 3⟩ }
  files := fun _ => ⟨0, 0x200000⟩
  fileSystems := fun _ => oneFile
  held := fun _ _ => 0

theorem oneFile_reads : ReadsInode oneFile 3 := by
  obtain ⟨hpos, hread⟩ := oneFile_fewInodes.reads 3 (by decide)
  exact readsInode_of hpos hread

/-- The second byte of the file. -/
theorem ext2_read_second : fileByte oneFile (diskInode oneFile 3) 1 = 105 ∧
    ∃ s', ext2ReadByte fileState 0x3000 (1 : ℕ) =
      .ok (fileByte oneFile (diskInode oneFile 3) 1, s') :=
  ⟨by decide, (ext2_read_iff rfl rfl (by decide) rfl
    (by decide) oneFile_reads (by decide)).mpr (by decide)⟩

/-- The second sector of a block is behind the end of the buffer, and a hole is filled with what is in
front of the superblock. -/
theorem ext2_read_wrong : WellFormed oneFile ∧ ReadsInode oneFile 3 ∧
    inodeType (diskInode oneFile 3) = 0x8000 ∧ field (diskInode oneFile 3) 4 4 = 3072 ∧
    ext2ReadByte fileState 0x3000 512 = .error .overread ∧
    fileByte oneFile (diskInode oneFile 3) 2048 = 0 ∧
    (ext2ReadByte fileState 0x3000 2048).toOption.map Prod.fst = some 0xEB := by
  refine ⟨oneFile_wellFormed, oneFile_reads, by decide, by decide, ?_,
    by decide +kernel, by decide +kernel⟩
  exact eq_error_of_faultOf (by decide +kernel)

end Cutesugar.Kernel.Fs
