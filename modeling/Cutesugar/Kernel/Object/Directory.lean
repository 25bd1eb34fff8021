import Cutesugar.Kernel.Misc.Tokenmgr
import Cutesugar.Libc.String

/-!
# Directories (`kernel/object/directory.c`)

`ResolveObjectName` splits a path at its first slash, copies both parts into buffers on its stack
and goes on with the second part. The buffers are byte lists of their sizes here, so a path that
does not fit is a fault of the copying loop.

`fuel` bounds the rounds of the loops over lists and `depth` the nested activations.
-/

namespace Cutesugar.Kernel

open Lib Libc

/-! ## Building -/

/-- `DirectoryAddChild`. `next` of the new entry is what the block held. -/
def directoryAddChild (fuel : ℕ) (s : State) (directory object : ℕ) : Option State :=
  -- a null directory is dereferenced
  if directory = 0 then none
  else if (s.objects directory).headerList = 0 then
    let (node, s) := malloc s
    let s := s.setObject directory { s.objects directory with headerList := node }
    some (s.setList node { s.lists node with item := object })
  else do
    let last ← walk (fun t => (s.lists t).next) (fun t => (s.lists t).next == 0) fuel
      (s.objects directory).headerList
    let (node, s) := malloc s
    let s := s.setList last { s.lists last with next := node }
    some (s.setList node { s.lists node with item := object })

/-- The name field after 32 bytes were copied to its start. -/
def copyName (field : List.Vector UInt8 64) (name : List.Vector UInt8 32) : List.Vector UInt8 64 :=
  ⟨name.toList ++ field.toList.drop 32, by simp⟩

/-- `CreateDirectory`, with the 32 bytes at `name`. `header_list` of the new directory is what the
block held. -/
def createDirectory (fuel : ℕ) (s : State) (root : ℕ) (name : List.Vector UInt8 32) :
    Option (ℕ × State) := do
  let (dir, s) := malloc s
  let old := s.objects dir
  let s := s.setObject dir { old with header := ⟨copyName old.header.name name, 1⟩ }
  let s ← directoryAddChild fuel s root dir
  some (dir, s)

/-! ## Parsing -/

/-- The loop of `str_slice`, for a number of rounds. -/
def strSliceLoop (string : List UInt8) : ℕ → ℕ → ℕ → List UInt8 → Except Fault (List UInt8)
  | 0, _, _, result => .ok result
  | rounds + 1, start, n, result =>
    match string[start]? with
    | none => .error .overread
    | some c =>
      if n < result.length then strSliceLoop string rounds (start + 1) (n + 1) (result.set n c)
      else .error .overflow

/-- `str_slice`: the bytes from `start` to `stop`, both included. -/
def strSlice (string : List UInt8) (start : ℕ) (stop : ℤ) (result : List UInt8) :
    Except Fault (List UInt8) :=
  strSliceLoop string (stop + 1 - start).toNat start 0 result

/-- The loop that looks for the end of the first component, from `stop` on; `none` where it
returns 0. -/
def componentEnd : List UInt8 → ℕ → Except Fault (Option ℕ)
  | [], _ => .error .overread
  | c :: cs, stop =>
    -- a slash ends the loop before the length is looked at
    if c = 47 then .ok (some stop)
    else if stop = 32 then .ok none
    else if c = 0 then .ok (some stop)
    else componentEnd cs (stop + 1)

/-- The buffers `obj_name` and `remaining`; `none` where the function returns 0 instead. -/
def splitName (name : List UInt8) : Except Fault (Option (List UInt8 × List UInt8)) := do
  match ← componentEnd name 0 with
  | none => .ok none
  | some stop => do
    let objName ← strSlice name 0 (stop - 1) (List.replicate 32 0)
    let len ← strlen name
    let remaining ← strSlice name (stop + 1) len (List.replicate 256 0)
    .ok (some (objName, remaining))

/-! ## Resolution -/

/-- `GetCurrentProcess()->cwd`. -/
def currentCwd (s : State) : Except Fault ℕ :=
  if getCurrentProcess s = 0 then .error .null else .ok (s.tasks (getCurrentProcess s)).cwd

/-- The directory that resolution starts from. -/
def startDirectory (s : State) (root : ℕ) : Except Fault ℕ :=
  if root = 0 then currentCwd s else .ok root

/-- The loop over a header list: the first entry whose item has the name, or the null pointer. -/
def findChild (s : State) (objName : List UInt8) : ℕ → ℕ → Except Fault ℕ
  | 0, t => if t = 0 then .ok 0 else .error .stuck
  | fuel + 1, t =>
    if t = 0 then .ok 0
    else if (s.lists t).item = 0 then .error .null
    else do
      let order ← strncmp (s.objects (s.lists t).item).header.name.toList objName 32
      if order = 0 then .ok t else findChild s objName fuel (s.lists t).next

/-- `ResolveObjectName`. -/
def resolveObjectName (fuel : ℕ) (s : State) : ℕ → ℕ → Option (List UInt8) → Except Fault ℕ
  | _, _, none => .ok 0
  | 0, _, some _ => .error .stuck
  | depth + 1, root, some name => do
    let root ← startDirectory s root
    match ← splitName name with
    | none => .ok 0
    | some (objName, remaining) => do
      let order ← strncmp objName [46, 0] 32
      if order = 0 then do
        let root ← (objGetRootObject fuel s).elim (.error .stuck) .ok
        resolveObjectName fuel s depth root (some remaining)
      else if root = 0 then .error .null
      else do
        let traversal ← findChild s objName fuel (s.objects root).headerList
        if traversal = 0 then .ok 0
        -- an item that is no directory is returned whatever remains of the path
        else if remaining.head? ≠ some 0 ∧ (s.objects (s.lists traversal).item).header.type = 1 then
          resolveObjectName fuel s depth (s.lists traversal).item (some remaining)
        else .ok (s.lists traversal).item

/-- `ChangeWorkingDirectory`. -/
def changeWorkingDirectory (fuel depth : ℕ) (s : State) (root : ℕ) (name : Option (List UInt8)) :
    Except Fault (ℤ × State) := do
  let dir ← resolveObjectName fuel s depth root name
  if dir = 0 then .ok (-1, s)
  else if getCurrentProcess s = 0 then .error .null
  else .ok (0, s.setTask (getCurrentProcess s) { s.tasks (getCurrentProcess s) with cwd := dir })

end Cutesugar.Kernel
