import Cutesugar.Kernel.Fs.Filesystem

/-!
# The ext2 file system (`kernel/fs/ext2.c`)

The disk is a function from sector numbers to sectors. Buffers are byte lists of their sizes, and
a pointer into a buffer is the list of the bytes from there to its end, so a read behind the end of
a buffer is a fault. What a block of the heap held before `malloc` handed it out is part of the
state, because the loop over the entries of a directory reads behind the sector that it copied.

`fuel` bounds the rounds of the loops over lists, `rounds` those of the loop over the entries of a
sector, and `depth` the nested activations.

- `Ext2Superblock`: `block_size` at offset 24, `blockgroup_inode_number` at 40, `signature` at 56,
  `inode_size` at 88.
- `BlockGroupDescriptor`: 32 bytes, `inode_table_block_location` at offset 8.
- `Inode`: `type_and_permissions` at offset 0, `direct_block_pointers` at 40.
- `DirectoryEntry`: `inode` at offset 0, `size` at 4, `name_length_less_significant` at 6,
  `name_character` at 8.
- `FileObject`: `header.name` at offset 0, `header.type` at 72, `data` at 88, `size` at 96,
  `connected_fs` at 104, and 112 bytes in all, which `malloc` rounds to a block of 128.
-/

namespace Cutesugar.Kernel.Fs

open Lib

/-- Why a function does not return. -/
inductive Fault where
  /-- a null pointer is followed -/
  | null
  /-- a division by zero -/
  | divide
  /-- a read behind the end of a buffer -/
  | overread
  /-- a write behind the end of a block -/
  | overflow
  /-- a loop or a recursion goes on beyond the bound -/
  | stuck
  deriving DecidableEq

def Fault.ofLibc : Libc.Fault → Fault
  | .overflow => .overflow
  | .overread => .overread
  | .null => .null
  | .stuck => .stuck

/-! ## Records -/

/-- `struct BlockDevice` with what its driver reads. -/
structure BlockDevice where
  blockSize : ℕ
  small : blockSize < 2 ^ 16
  read : ℕ → List.Vector UInt8 512

/-- `struct FileSystem`, with the superblock at `fs_data`. -/
structure FileSystem where
  superblock : List.Vector UInt8 512
  blockDevice : BlockDevice

/-- The kernel with its file systems. `held i k` is byte `k` of the block that the `i`-th call of
`malloc` returns, as it was before. -/
structure Ext2State extends FsState where
  fileSystems : ℕ → FileSystem
  held : ℕ → ℕ → UInt8

/-- The state after some calls of `malloc`. -/
abbrev Ext2State.skip (s : Ext2State) (n : ℕ) : Ext2State :=
  { s with kernel := { s.kernel with mallocs := s.kernel.mallocs + n } }

variable (F : FileSystem)

/-- `1024 << superblock->block_size` in 32 bits. -/
def blockSize : ℕ := (1024 <<< (field F.superblock.toList 24 4 % 32)) % 2 ^ 32

def inodesPerGroup : ℕ := field F.superblock.toList 40 4

def signature : ℕ := field F.superblock.toList 56 2

def inodeSize : ℕ := field F.superblock.toList 88 2

/-! ## Reading memory -/

/-- A field of a record that `bytes` starts with. -/
def readField (bytes : List UInt8) (offset n : ℕ) : Except Fault ℕ :=
  if offset + n ≤ bytes.length then .ok (field bytes offset n) else .error .overread

/-- Bytes that `memcpy` reads. -/
def readBytes (bytes : List UInt8) (offset n : ℕ) : Except Fault (List UInt8) :=
  if offset + n ≤ bytes.length then .ok ((bytes.drop offset).take n) else .error .overread

def divide (a b : ℕ) : Except Fault ℕ := if b = 0 then .error .divide else .ok (a / b)

/-! ## Inodes -/

/-- The bytes from the inode on that `ReadInode` finds for an index that is not null. -/
def inodeAt (index : ℕ) : Except Fault (List UInt8) := do
  let place ← divide 2048 F.blockDevice.blockSize
  let bgdTable := (F.blockDevice.read place).toList
  let group ← divide (index - 1) (inodesPerGroup F)
  let table ← readField (bgdTable.drop (32 * group)) 8 4
  let location ← divide (table * blockSize F % 2 ^ 32) F.blockDevice.blockSize
  let inodeTable := (List.range 32).flatMap fun i => (F.blockDevice.read (location + i)).toList
  .ok (inodeTable.drop ((index - 1) % inodesPerGroup F * inodeSize F))

/-- `ReadInode`; `none` where it returns 0. -/
def readInode (s : Ext2State) (index : ℕ) : Except Fault (Option (List UInt8) × Ext2State) :=
  if index < 1 then .ok (none, s)
  else do
    let inode ← inodeAt F index
    .ok (some inode, s.skip 2)

/-! ## Import of a directory -/

/-- The sector of a block that holds its bytes from `count` sectors on. -/
def sectorOf (pointer count : ℕ) : Except Fault ℕ := do
  let location ← divide (pointer * blockSize F % 2 ^ 32) F.blockDevice.blockSize
  .ok ((location + count) % 2 ^ 32)

/-- The buffer of 0x800 bytes after one sector was copied to its start. -/
def sectorBuffer (held : ℕ → UInt8) (location : ℕ) : List UInt8 :=
  (F.blockDevice.read location).toList ++ (List.range 1536).map fun k => held (512 + k)

/-- A value of type `int`. -/
def toInt (x : ℤ) : ℤ := Int.bmod x (2 ^ 32)

/-- The name of an entry is `.` or `..`. -/
def isDots (entry : List UInt8) : Except Fault Bool := do
  let one ← (Libc.strncmp (entry.drop 8) [46, 0, 0] 2).mapError Fault.ofLibc
  if one = 0 then .ok true
  else do
    let two ← (Libc.strncmp (entry.drop 8) [46, 46, 0, 0] 3).mapError Fault.ofLibc
    .ok (two == 0)

/-- What a list of the kernel makes of a null pointer or of a bound that runs out. -/
def orFault {α : Type} (root : ℕ) : Option α → Except Fault α
  | some a => .ok a
  | none => .error (if root = 0 then .null else .stuck)

/-- The 32 bytes that `CreateDirectory` copies. -/
def readName (entry : List UInt8) : Except Fault (List.Vector UInt8 32) :=
  if h : 40 ≤ entry.length then
    .ok ⟨(entry.drop 8).take 32, by rw [List.length_take, List.length_drop]; omega⟩
  else .error .overread

/-- The name field of a file after the bytes of the name were copied to its start. -/
def copyFileName (old : List.Vector UInt8 64) (name : List UInt8) : List.Vector UInt8 64 :=
  ⟨name.take 64 ++ old.toList.drop name.length, by
    rw [List.length_append, List.length_take, List.length_drop, old.toList_length]
    omega⟩

/-- A field of `n` bytes at an offset of an object, after the copy of a name to the start of the
object has reached as many of them as it is long. -/
def copyOver (name : List UInt8) (offset n old : ℕ) : ℕ :=
  let copied := (name.drop offset).take n
  littleEndian copied + old / 256 ^ copied.length * 256 ^ copied.length

/-- The header of a file after the copy. -/
def copyHeader (old : ObjectHeader) (name : List UInt8) : ObjectHeader :=
  ⟨copyFileName old.name name, copyOver name 72 8 old.type⟩

/-- `size` of a file after the copy. -/
def copyOverSize (name : List UInt8) (old : ℤ) : ℤ :=
  if name.length ≤ 96 then old else Int.bmod (copyOver name 96 8 (old % 2 ^ 64).toNat) (2 ^ 64)

/-- An entry that is a directory: `CreateDirectory`, which already adds it to the root, and
`DirectoryAddChild`. -/
def addDirectory (fuel : ℕ) (s : Ext2State) (root : ℕ) (name : List.Vector UInt8 32) :
    Except Fault (ℕ × Ext2State) := do
  let (dir, k) ← orFault root (createDirectory fuel s.kernel root name)
  let k ← orFault root (directoryAddChild fuel k root dir)
  .ok (dir, { s with kernel := k })

/-- An entry that is no directory. Type and size of the new object are what the block held, as far
as the copy of the name does not reach them: its length is not looked at. -/
def addFile (fuel fs : ℕ) (s : Ext2State) (root inode : ℕ) (name : List UInt8) :
    Except Fault Ext2State := do
  let (fileObject, k) := malloc s.kernel
  let old := k.objects fileObject
  if 128 < name.length then .error .overflow
  else do
    let k := k.setObject fileObject
      -- `inode` is at the offset of the header list of a directory
      { header := copyHeader old.header name, headerList := inode }
    let files := Function.update s.files fileObject
      ⟨copyOverSize name (s.files fileObject).size, fs⟩
    let k ← orFault root (directoryAddChild fuel k root fileObject)
    .ok { s with kernel := k, files := files }

/-- An entry with a name that is neither of the dots; `descend` is the recursive call. -/
def importEntry (fs fuel : ℕ) (descend : Ext2State → ℕ → ℕ → Except Fault Ext2State)
    (s : Ext2State) (root : ℕ) (entry : List UInt8) : Except Fault Ext2State := do
  let inode ← readField entry 0 4
  let (object, s) ← readInode F s inode
  -- the result of `ReadInode` is dereferenced at once
  let object ← object.elim (.error .null) .ok
  let type ← readField object 0 2
  if type &&& 0x4000 ≠ 0 then do
    let name ← readName entry
    let (dirObject, s) ← addDirectory fuel s root name
    descend s dirObject inode
  else do
    let length ← readField entry 6 1
    let name ← readBytes entry 8 length
    addFile fuel fs s root inode name

/-- The loop over the entries of a sector, from `entry` on. -/
def entriesLoop (body : Ext2State → List UInt8 → Except Fault Ext2State) (limit : ℤ) :
    ℕ → Ext2State → ℤ → List UInt8 → Except Fault Ext2State
  | 0, s, index, _ => if index < limit then .error .stuck else .ok s
  | rounds + 1, s, index, entry =>
    if index < limit then do
      let name ← readField entry 8 1
      let dots ← isDots entry
      let s ← if name = 0 ∨ dots then .ok s else body s entry
      let size ← readField entry 4 2
      -- the dots go on without a look at their size
      if size = 0 ∧ ¬ dots then .ok s
      else entriesLoop body limit rounds s (toInt (index + size)) (entry.drop size)
    else .ok s

/-- One sector of a directory. -/
def importSector (fs fuel rounds : ℕ) (descend : Ext2State → ℕ → ℕ → Except Fault Ext2State)
    (root pointer : ℕ) (s : Ext2State) (count : ℕ) : Except Fault Ext2State := do
  let location ← sectorOf F pointer count
  let entry := sectorBuffer F (s.held s.kernel.mallocs) location
  entriesLoop (fun s entry => importEntry F fs fuel descend s root entry)
    (toInt ((count + 1) * F.blockDevice.blockSize)) rounds (s.skip 1)
    (toInt (count * F.blockDevice.blockSize)) entry

/-- One block of a directory. -/
def importBlock (fs fuel rounds : ℕ) (descend : Ext2State → ℕ → ℕ → Except Fault Ext2State)
    (root : ℕ) (inode : List UInt8) (s : Ext2State) (i : ℕ) : Except Fault Ext2State := do
  let pointer ← readField inode (40 + 4 * i) 4
  if pointer = 0 then .ok s
  else do
    let sectors ← divide (blockSize F) F.blockDevice.blockSize
    (List.range sectors).foldlM (importSector F fs fuel rounds descend root pointer) s

/-- `CreateDirectoryEntry`. -/
def createDirectoryEntry (fs fuel rounds : ℕ) : ℕ → Ext2State → ℕ → ℕ → Except Fault Ext2State
  | 0, _, _, _ => .error .stuck
  | depth + 1, s, root, index => do
    let (inode, s) ← readInode F s index
    match inode with
    | none => .ok s
    | some inode => do
      let type ← readField inode 0 2
      if type &&& 0x4000 = 0 then .ok s
      -- the direct blocks; the three indirect ones are not looked at
      else (List.range 12).foldlM (importBlock F fs fuel rounds
        (createDirectoryEntry fs fuel rounds depth) root inode) s

/-- The file system with the superblock that the device holds. -/
def fileSystemOf (bd : BlockDevice) : Except Fault FileSystem := do
  let location ← divide 1024 bd.blockSize
  .ok ⟨bd.read location, bd⟩

/-- `InitializeExt2FilesystemFromBlockDevice`. -/
def initializeExt2FilesystemFromBlockDevice (fuel rounds depth : ℕ) (s : Ext2State)
    (bd : BlockDevice) : Except Fault (ℕ × Ext2State) := do
  let fs := s.kernel.blocks s.kernel.mallocs
  let F ← fileSystemOf bd
  -- the structure and the superblock are filled before the signature is checked
  let s := { s.skip 2 with fileSystems := Function.update s.fileSystems fs F }
  if signature F ≠ 0xEF53 then .ok (0, s)
  else do
    let root ← (objGetRootObject fuel s.kernel).elim (.error .stuck) .ok
    -- inode 2 is the root directory
    let s ← createDirectoryEntry F fs fuel rounds depth s root 2
    .ok (fs, s)

/-! ## Reading a file -/

/-- `Ext2ReadByte`. -/
def ext2ReadByte (s : Ext2State) (fo : ℕ) (offset : ℤ) : Except Fault (UInt8 × Ext2State) := do
  let F := s.fileSystems (s.files fo).connectedFs
  let (inode, s) ← readInode F s (s.data fo % 2 ^ 32)
  if blockSize F = 0 then .error .divide
  else
    let block := offset.tdiv (blockSize F)
    let offsetInBlock := offset.tmod (blockSize F)
    if 11 < block then .ok (0, s)
    else do
      let inode ← inode.elim (.error .null) .ok
      -- an element in front of the first
      let i ← if block < 0 then .error .overread else .ok block.toNat
      let pointer ← readField inode (40 + 4 * i) 4
      let location ← divide (pointer * blockSize F % 2 ^ 32) F.blockDevice.blockSize
      let data := F.blockDevice.read location
      if h : 0 ≤ offsetInBlock ∧ offsetInBlock < 512 then
        .ok (data.get ⟨offsetInBlock.toNat, by omega⟩, s.skip 1)
      else .error .overread

end Cutesugar.Kernel.Fs
