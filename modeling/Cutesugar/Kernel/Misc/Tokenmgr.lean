import Cutesugar.Kernel.State

/-!
# Tokens (`kernel/misc/tokenmgr.c`)

Every process has one entry in a dictionary of tokens, appended at its creation. The check of a
permission looks the current process up by its identifier, so it reads the token of the first
process of the task list with that identifier.
-/

namespace Cutesugar.Kernel

open Lib

/-- `KernelGetTokenForProcess`: append an entry and return it. `next` of the new entry is what
the block held. -/
def kernelGetTokenForProcess (fuel : ℕ) (s : State) (id : ℕ) (permissions : UInt8) :
    Option (ℕ × State) :=
  let (newTd, s) := malloc s
  let s := s.setToken newTd
    -- only bit 0 of the permissions is kept
    { id := id, canAccessRoot := permissions &&& 1, next := (s.tokens newTd).next }
  if s.tokDict = 0 then some (newTd, { s with tokDict := newTd })
  else do
    let last ← walk (fun t => (s.tokens t).next) (fun t => (s.tokens t).next == 0) fuel s.tokDict
    some (newTd, s.setToken last { s.tokens last with next := newTd })

/-- `KernelCheckToken`: 1 or 0. -/
def kernelCheckToken (fuel : ℕ) (s : State) (permission : UInt8) : Option ℕ :=
  let id := getCurrentProcessId s
  if id = 0 then some 1
  else do
    let task ← findProcess fuel s id
    -- a null task is dereferenced
    if task = 0 then none
    else if (s.tokens (s.tasks task).token).canAccessRoot &&& permission = permission then some 1
    else some 0

/-- `ObjGetRootObject` (`kernel/object/object.c`). -/
def objGetRootObject (fuel : ℕ) (s : State) : Option ℕ :=
  (kernelCheckToken fuel s 1).map fun granted => if granted ≠ 0 then s.rootObject else 0

end Cutesugar.Kernel
