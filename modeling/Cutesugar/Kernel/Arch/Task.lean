import Cutesugar.Kernel.Misc.Tokenmgr

/-!
# Processes (`kernel/arch/task.c`)

The task list starts as one node with a null `next` and becomes a ring with the second process.
Both creators search for its last node with a loop of their own and link the new node behind it,
pointing back to the first node.

The words the creators put on a new stack are stored in byte memory.
-/

namespace Cutesugar.Kernel

open Lib Lib.Memory

variable (P : Mmu.Platform)

/-- `*--rsp = w` for each of the words. -/
def pushWords (s : State) (rsp : ℕ) (ws : List ℕ) : ℕ × State :=
  ws.foldl (fun (rsp, s) w =>
    (rsp - 8, { s with mmu := { s.mmu with mem := s.mmu.mem.store64 (rsp - 8) w } })) (rsp, s)

/-- The loop `while(t->next){ if(t->next == first_task) break; t = t->next; }`. -/
def lastNode (fuel : ℕ) (s : State) : Option ℕ :=
  walk (fun t => (s.nodes t).next)
    (fun t => (s.nodes t).next == 0 || (s.nodes t).next == s.firstTask) fuel s.firstTask

/-- The value `process_id` has as a `uint64_t`. -/
def pidValue (pid : BitVec 32) : ℕ := (pid.signExtend 64).toNat

/-- The words both creators leave for `switch_task` on a new stack: where to return to, and six
callee-saved registers. -/
def switchFrame (rip : ℕ) : List ℕ := [rip, 0, 0, 0, 0, 0, 0]

/-- `KernelNewPageStructure(old) - KernelGetHhdmOffset()`. -/
def newCr3 (s : State) (old : ℕ) : ℕ × State :=
  let (root, mmu) := Mmu.kernelNewPageStructure P s.mmu old
  ((root + 2 ^ 64 - P.hhdmOffset) % 2 ^ 64, { s with mmu := mmu })

/-- The branch of `KernelInitializeProcess` for the first process. -/
def initializeFirst (fuel : ℕ) (s : State) (rip permissions : ℕ) : Option State := do
  let (node, s) := malloc s
  let s := { s with firstTask := node }
  let (task, s) := malloc s
  -- `next` is what the block held
  let s := s.setNode node { s.nodes node with task := task }
  let (stack, s) := malloc s
  let id := pidValue s.processId
  let (token, s) ← kernelGetTokenForProcess fuel s id (UInt8.ofNat permissions)
  let cwd ← objGetRootObject fuel s
  let (rsp, s) := pushWords s (stack + 0x2000) (switchFrame rip)
  -- the first process keeps the current address space
  let s := s.setTask task { rip, rsp, cr3 := s.cr3, id, token, cwd }
  some { s with currentTask := node }

/-- The part of `KernelInitializeProcess` for every later process. -/
def initializeNext (fuel : ℕ) (s : State) (rip permissions : ℕ) : Option State := do
  let last ← lastNode fuel s
  let (node, s) := malloc s
  let (task, s) := malloc s
  let (stack, s) := malloc s
  let id := pidValue s.processId
  let (token, s) ← kernelGetTokenForProcess fuel s id (UInt8.ofNat permissions)
  let (cr3, s) := newCr3 P s 0
  let cwd ← objGetRootObject fuel s
  -- the new node leads back to the first one, and the last one to it
  let s := s.setNode node { task, next := s.firstTask }
  let (rsp, s) := pushWords s (stack + 0x2000) (switchFrame rip)
  let s := s.setTask task { rip, rsp, cr3, id, token, cwd }
  some (s.setNode last { s.nodes last with next := node })

/-- `KernelInitializeProcess`. -/
def kernelInitializeProcess (fuel : ℕ) (s : State) (rip permissions : ℕ) : Option State :=
  let s := { s with processId := s.processId + 1 }
  if s.firstTask = 0 then initializeFirst fuel s rip permissions
  else initializeNext P fuel s rip permissions

/-- The frame of `resume_user` on the stack of a clone: what `iretq` pops, a place for two codes
and fifteen registers, and the words for `switch_task`. `&resume_user` is a parameter. -/
def cloneFrame (rip userRsp resumeUser : ℕ) : List ℕ :=
  [35, userRsp, 0x202, 27, rip] ++ List.replicate 17 0 ++ switchFrame resumeUser

/-- `KernelCloneProcess`, with the address of `resume_user`. -/
def kernelCloneProcess (fuel resumeUser : ℕ) (s : State) (rip ursp : ℕ) : Option (ℕ × State) :=
  let s := { s with processId := s.processId + 1 }
  -- a null `first_task` is dereferenced
  if s.firstTask = 0 then none
  else do
    let last ← lastNode fuel s
    let (node, s) := malloc s
    let old := (s.cr3 + P.hhdmOffset) % 2 ^ 64
    let (task, s) := malloc s
    let (stack, s) := malloc s
    let id := pidValue s.processId
    -- the permission is 1 whatever the current process has
    let (token, s) ← kernelGetTokenForProcess fuel s id 1
    let (cr3, s) := newCr3 P s old
    let cwd ← objGetRootObject fuel s
    let s := s.setNode node { task, next := s.firstTask }
    let (block, s) := malloc s
    let newStack := block + 0x2000
    let s := { s with mmu := { s.mmu with mem := s.mmu.mem.memcpy newStack ursp 2048 } }
    let (rsp, s) := pushWords s (stack + 0x128) (cloneFrame rip newStack resumeUser)
    let s := s.setTask task { rip, rsp, cr3, id, token, cwd }
    some (id, s.setNode last { s.nodes last with next := node })

/-- `KernelSwitchProcess`; `rsp` is the stack pointer that `switch_task` saves. -/
def kernelSwitchProcess (s : State) (rsp : ℕ) : State :=
  -- no process runs yet, or it is the only one
  if s.currentTask = 0 then s
  else if (s.nodes s.currentTask).next = 0 then s
  else
    let prev := s.currentTask
    let current := (s.nodes prev).next
    let prevTask := (s.nodes prev).task
    let s := s.setTask prevTask { s.tasks prevTask with rsp := rsp }
    { s with prevTask := prev, currentTask := current, cr3 := (s.tasks (s.nodes current).task).cr3 }

end Cutesugar.Kernel
