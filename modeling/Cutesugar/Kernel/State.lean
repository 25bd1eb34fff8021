import Cutesugar.Kernel.Arch.Mmu
import Cutesugar.Lib.Chain
import Mathlib.Data.Vector.Basic

/-!
# State of the kernel

The linked structures of the kernel heap are heaps of records here, one for each type, indexed
by address; a field that is a pointer holds an address and 0 is the null pointer. Byte memory
and page tables are those of the paging module.

A loop over a list is a `walk` with a bound `fuel` on its rounds, and a function whose loop runs
out of it, or that follows a null pointer, returns `none`.
-/

namespace Cutesugar.Kernel

open Lib Lib.Memory

/-! ## Records -/

/-- `struct TaskList`. -/
structure TaskList where
  task : ℕ
  next : ℕ
  deriving DecidableEq

/-- `struct Task`. The token is named by the dictionary entry it is part of. -/
structure Task where
  rip : ℕ
  rsp : ℕ
  cr3 : ℕ
  id : ℕ
  token : ℕ
  cwd : ℕ
  deriving DecidableEq

/-- `struct TokenDictionary` with the one field of `struct Token`. -/
structure TokenDictionary where
  id : ℕ
  canAccessRoot : UInt8
  next : ℕ
  deriving DecidableEq

/-- `struct ObjectHeader`. -/
structure ObjectHeader where
  name : List.Vector UInt8 64
  type : ℕ
  deriving DecidableEq

/-- `struct Directory`. Every object is read through this type; of one that is no directory
`headerList` is whatever stands behind its header. -/
structure Directory where
  header : ObjectHeader
  headerList : ℕ
  deriving DecidableEq

/-- `struct ObjectHeaderList`. -/
structure ObjectHeaderList where
  item : ℕ
  next : ℕ
  deriving DecidableEq

/-- The static variables of `task.c`, `tokenmgr.c` and `object.c`, the heaps of records, and the
register `cr3`. `blocks i` is what the `i`-th call of `malloc` returns and `mallocs` counts the
calls made so far. -/
structure State where
  nodes : ℕ → TaskList
  tasks : ℕ → Task
  tokens : ℕ → TokenDictionary
  objects : ℕ → Directory
  lists : ℕ → ObjectHeaderList
  firstTask : ℕ
  prevTask : ℕ
  currentTask : ℕ
  processId : BitVec 32
  tokDict : ℕ
  rootObject : ℕ
  blocks : ℕ → ℕ
  mallocs : ℕ
  mmu : Mmu.State
  cr3 : ℕ

/-- `malloc`: the next block of the supply. -/
abbrev malloc (s : State) : ℕ × State :=
  (s.blocks s.mallocs, { s with mallocs := s.mallocs + 1 })

abbrev State.setNode (s : State) (p : ℕ) (n : TaskList) : State :=
  { s with nodes := Function.update s.nodes p n }

abbrev State.setTask (s : State) (p : ℕ) (t : Task) : State :=
  { s with tasks := Function.update s.tasks p t }

abbrev State.setToken (s : State) (p : ℕ) (t : TokenDictionary) : State :=
  { s with tokens := Function.update s.tokens p t }

abbrev State.setObject (s : State) (p : ℕ) (d : Directory) : State :=
  { s with objects := Function.update s.objects p d }

abbrev State.setList (s : State) (p : ℕ) (l : ObjectHeaderList) : State :=
  { s with lists := Function.update s.lists p l }

/-! ## Processes -/

/-- `GetCurrentProcess`. -/
def getCurrentProcess (s : State) : ℕ :=
  if s.currentTask = 0 then 0 else (s.nodes s.currentTask).task

/-- `GetCurrentProcessId`. -/
def getCurrentProcessId (s : State) : ℕ :=
  if s.currentTask = 0 then 0 else (s.tasks (s.nodes s.currentTask).task).id

/-- The loop of `find_process`: the first node whose task has the identifier, or the end of the
list. -/
def findNode (fuel : ℕ) (s : State) (id : ℕ) : Option ℕ :=
  walk (fun t => (s.nodes t).next)
    (fun t => t == 0 || (s.tasks (s.nodes t).task).id == id) fuel s.firstTask

/-- `find_process`. -/
def findProcess (fuel : ℕ) (s : State) (id : ℕ) : Option ℕ :=
  (findNode fuel s id).map fun t => if t = 0 then 0 else (s.nodes t).task

end Cutesugar.Kernel
