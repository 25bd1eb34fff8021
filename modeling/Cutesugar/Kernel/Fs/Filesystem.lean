import Cutesugar.Kernel.Object.ListBuilders
import Cutesugar.Lib.Bytes

/-!
# Files (`kernel/object/filesystem.c`)

A file is an object with three more fields. `data` stands where a directory has its header list,
so it is the field `headerList` of the record of the object; the other two are in a heap of
records of their own.

`connected_fs` is an untyped pointer. `ReadByte` and `WriteByte` take it for a table of functions
whatever it points to. Functions are named by their addresses.
-/

namespace Cutesugar.Kernel.Fs

open Lib

/-- The fields of `struct FileObject` behind `data`. -/
structure FileFields where
  size : ℤ
  connectedFs : ℕ
  deriving DecidableEq

/-- The kernel with its files. -/
structure FsState where
  kernel : State
  files : ℕ → FileFields

/-- `file->data`. -/
def FsState.data (s : FsState) (file : ℕ) : ℕ := (s.kernel.objects file).headerList

/-- The byte memory. -/
abbrev FsState.mem (s : FsState) : Memory := s.kernel.mmu.mem

/-- `struct FileSystemFunctions`. -/
structure FileSystemFunctions where
  readCharFunction : ℕ
  writeCharFunction : ℕ
  deriving DecidableEq

/-- What the linker decides: the addresses of functions, and of the variable `ramfs_functions`. -/
structure Image where
  ramfsReadByte : ℕ
  ramfsWriteByte : ℕ
  ext2ReadByte : ℕ
  ramfsFunctions : ℕ

variable (I : Image)

/-- `*(struct FileSystemFunctions *) p`. All structures but the static one start with the header of
an object, so of them these are the first bytes of a name. -/
def functionsAt (s : FsState) (p : ℕ) : FileSystemFunctions :=
  if p = I.ramfsFunctions then ⟨I.ramfsReadByte, I.ramfsWriteByte⟩
  else
    let name := (s.kernel.objects p).header.name.toList
    ⟨field name 0 8, field name 8 8⟩

/-- A call of a reader. -/
structure ReadCall where
  function : ℕ
  file : ℕ
  offset : ℤ
  deriving DecidableEq

/-- A call of a writer. -/
structure WriteCall where
  function : ℕ
  file : ℕ
  offset : ℤ
  byte : UInt8
  deriving DecidableEq

/-- `ReadByte`: the call it makes. -/
def readByte (s : FsState) (fo : ℕ) (offset : ℤ) : ReadCall :=
  ⟨(functionsAt I s (s.files fo).connectedFs).readCharFunction, fo, offset⟩

/-- `WriteByte`: the call it makes. -/
def writeByte (s : FsState) (fo : ℕ) (offset : ℤ) (byte : UInt8) : WriteCall :=
  ⟨(functionsAt I s (s.files fo).connectedFs).writeCharFunction, fo, offset, byte⟩

end Cutesugar.Kernel.Fs
