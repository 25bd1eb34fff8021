import Cutesugar.Modules.AhciTransfer
import Cutesugar.Lib.Run

/-!
# The disk driver's memory over whole runs (`modules/ahci/ahci.c`)

What the driver and its device write stays in frames that the driver has taken and that nobody else uses, in
whichever order ports are set up and commands are issued and answered, and others take frames, map pages and
write what is theirs. In all of these states `AhciReadSector` does what it does without page tables and
addresses.

- `AhciCall`, `AhciRun`: runs of the driver beside the rest of the kernel.
- `Confined`: each port has areas of its own, which the processor and the device find at the same place.
- `DriverInv`: the same over the page map that the tables stand for, which is what each call keeps.
- `dma_confined`, `sector_refines`: the two results about runs.
-/

namespace Cutesugar.Modules

open Kernel.Mmu Lib Lib.Memory

/-! ## Runs -/

/-- The state with the ports that were set up. -/
structure AhciRun where
  state : AhciState
  up : List ℕ

/-- A call of the driver, with what the device lets it read and what it sends; or of others, who take frames,
map pages for a device of theirs and write memory. -/
inductive AhciCall where
  | initializeAhciPort (i : ℕ) (cs : ℕ → UInt32)
  | ahciSendIdentify (specificInfo : UInt64) (d : AhciDevice) (answer : AhciCommand → ℕ → Answer)
  | ahciReadSector (specificInfo : UInt64) (offset : Int64) (d : AhciDevice) (answer : AhciCommand → ℕ → Answer)
  | kernelAllocateFrame
  | kernelMapMmio (v pa : ℕ)
  | write (w : ℕ) (x : UInt8)

variable (P : Platform) (count fuel : ℕ)

/-- The kernel's memory after a call. -/
def AhciRun.withMmu (r : AhciRun) (s : Kernel.Mmu.State) : AhciRun := { r with state := { r.state with mmu := s } }

def AhciRun.step (r : AhciRun) : AhciCall → AhciRun
  | .initializeAhciPort i cs => ⟨(initializeAhciPort P fuel cs r.state i).getD r.state, i :: r.up⟩
  | .ahciSendIdentify specificInfo d answer =>
    { r with state := ((r.state.ahciSendIdentify P d answer fuel specificInfo).map (·.1)).getD r.state }
  | .ahciReadSector specificInfo offset d answer =>
    { r with state := ((r.state.ahciReadSector P d answer fuel specificInfo offset).map (·.1)).getD r.state }
  | .kernelAllocateFrame => r.withMmu (Kernel.Mmu.kernelAllocateFrame r.state.mmu).2
  | .kernelMapMmio v pa => r.withMmu (Kernel.Mmu.kernelMapMmio P r.state.mmu v pa)
  | .write w x => r.withMmu (r.state.mmu.withMem (Function.update r.state.mmu.mem (w + P.hhdmOffset) x))

/-- The frame behind `sata_buffer`. -/
def AhciState.bufferFrame (a : AhciState) : ℕ := (a.sataBuffer + (2 ^ 64 - mmioOffset)) % 2 ^ 64

/-- A physical address in one of the frames that the ports work on. -/
def AhciRun.Uses (r : AhciRun) (w : ℕ) : Prop :=
  w ∈ FrameBytes r.state.bufferFrame 0 4096 ∨
    ∃ i ∈ r.up, ∃ x, w ∈ FrameBytes (area P r.state.mmu.mem (r.state.port i) x) 0 4096

/-- A call that is made: the device stops when it is told to and the pool has frames, commands are issued to
ports that were set up and return, and others keep to their own pages and memory. -/
def AhciRun.Allowed (r : AhciRun) : AhciCall → Prop
  | .initializeAhciPort _ cs => Stops cs fuel ∧ r.state.mmu.stackPosition + 144 ≤ count
  | .ahciSendIdentify specificInfo d answer =>
    specificInfo.toNat ∈ r.up ∧ (r.state.ahciSendIdentify P d answer fuel specificInfo).isSome
  | .ahciReadSector specificInfo offset d answer =>
    specificInfo.toNat ∈ r.up ∧ (r.state.ahciReadSector P d answer fuel specificInfo offset).isSome
  | .kernelAllocateFrame => r.state.mmu.stackPosition < count
  | .kernelMapMmio v pa => Canonical v ∧ v / 4096 ∉ windowPages ∧ pa % 4096 = 0 ∧ pa < 2 ^ 63 ∧
    (Kernel.Mmu.kernelMapMmio P r.state.mmu v pa).stackPosition ≤ count
  | .write w _ => w + P.hhdmOffset ∉ Spare P count r.state.mmu ∧ ¬ r.Uses P w

/-- The addresses of memory that a call may write. -/
def AhciRun.Writes (r : AhciRun) : AhciCall → Set ℕ
  | .initializeAhciPort _ _ => Spare P count r.state.mmu
  | .ahciSendIdentify specificInfo _ _ => {b | ∃ w ∈ PortWrites P r.state.mmu.mem
      (r.state.port specificInfo.toNat) r.state.bufferFrame, b = w + P.hhdmOffset}
  | .ahciReadSector specificInfo _ _ _ => {b | ∃ w ∈ PortWrites P r.state.mmu.mem
      (r.state.port specificInfo.toNat) r.state.bufferFrame, b = w + P.hhdmOffset}
  | .kernelAllocateFrame => ∅
  | .kernelMapMmio _ _ => Spare P count r.state.mmu
  | .write w _ => {w + P.hhdmOffset}

/-! ## What holds in every state -/

/-- A frame of the driver as the processor and the device find it: the processor at its own address in the
window, the device at its physical address. It is no table, and it is not left in the pool. -/
structure OwnFrame (s : Kernel.Mmu.State) (f : ℕ) : Prop where
  low : f < 2 ^ 32
  seen : ∀ o < 4096, physical P s.mem P.kernelPml4 (mmioAddress f + o) = some (f + P.hhdmOffset + o)
  spare : ∀ o < 4096, f + P.hhdmOffset + o ∉ Spare P count s

/-- **The driver is confined**: the ports that were set up and the buffer have frames of their own, and the
32 bits that the device is given are all of their addresses. -/
structure Confined (r : AhciRun) : Prop where
  area : ∀ i ∈ r.up, ∀ x, OwnFrame P count r.state.mmu (area P r.state.mmu.mem (r.state.port i) x)
  apart : ∀ i ∈ r.up, ∀ j ∈ r.up, ∀ x y,
    Modules.area P r.state.mmu.mem (r.state.port i) x = Modules.area P r.state.mmu.mem (r.state.port j) y →
      i = j ∧ x = y
  upper : ∀ i ∈ r.up, (r.state.port i).claUpper = 0 ∧ (r.state.port i).fisUpper = 0 ∧
    ∀ slot < 32, tableUpper P r.state.mmu.mem (r.state.port i).commandListAddress slot = 0
  buffer : ∀ i ∈ r.up, r.state.sataBuffer = mmioAddress r.state.bufferFrame ∧
    OwnFrame P count r.state.mmu r.state.bufferFrame ∧
    ∀ x, Modules.area P r.state.mmu.mem (r.state.port i) x ≠ r.state.bufferFrame

/-- **The invariant**, over the map that the tables of the kernel stand for. -/
structure DriverInv (r : AhciRun) (M : PageMap) : Prop where
  windowed : Windowed P count r.state.mmu M
  room : r.state.mmu.stackPosition ≤ count
  usable : ∀ i ∈ r.up, Usable P count r.state M i r.state.bufferFrame
  apart : ∀ i ∈ r.up, ∀ j ∈ r.up, ∀ x y,
    area P r.state.mmu.mem (r.state.port i) x = area P r.state.mmu.mem (r.state.port j) y → i = j

/-- The invariant holds for some map. -/
def AhciRun.Driven (r : AhciRun) : Prop := ∃ M, DriverInv P count r M

variable {P count fuel} {r : AhciRun} {M M' : PageMap} {a a' : AhciState} {s' : Kernel.Mmu.State} {f i n : ℕ}
  {W : Set ℕ}

theorem bufferFrame_eq (h : a.sataBuffer = mmioAddress f) (hlow : f < 2 ^ 32) : a.bufferFrame = f := by
  rw [AhciState.bufferFrame, h, sub_mmioOffset hlow]

theorem Windowed.ownFrame {s : Kernel.Mmu.State} (h : Windowed P count s M) (hf : Held M f) :
    OwnFrame P count s f where
  low := hf.low
  seen o ho := by
    have hcanonical := canonical_window (windowPage_mem hf.low)
    have hphysical := h.owned.physical_eq (windowPage_mem hf.low) hf.bound ho
    unfold Canonical at hcanonical
    rw [mmioAddress_eq hf.low hf.aligned, ← hphysical, Nat.mod_eq_of_lt (by omega)]
  spare o ho := h.not_mem_spare hf ho

theorem DriverInv.confined (h : DriverInv P count r M) : Confined P count r where
  area i hi x := h.windowed.ownFrame ((h.usable i hi).ready.held x)
  apart i hi j hj x y heq := by
    obtain rfl := h.apart i hi j hj x y heq
    exact ⟨rfl, (h.usable i hi).ready.injective heq⟩
  upper i hi := ⟨(h.usable i hi).ready.claUpper, (h.usable i hi).ready.fisUpper, (h.usable i hi).ready.tableUpper⟩
  buffer i hi := ⟨(h.usable i hi).buffer, h.windowed.ownFrame (h.usable i hi).held, (h.usable i hi).apart⟩

/-! ## One call -/

/-- A port can be used as before if its list is not written and the buffer is none of its areas. -/
theorem Usable.carry (h : Usable P count a M i f) (a' : AhciState) (hd : Drives P count n W a.mmu a'.mmu M M')
    (hW : ∀ o < 4096, (a.port i).commandListAddress + o ∉ W) (hport : a'.port i = a.port i) {g : ℕ}
    (hbuffer : a'.sataBuffer = mmioAddress g) (hg : Held M' g) (hapart : ∀ x, area P a.mmu.mem (a.port i) x ≠ g) :
    Usable P count a' M' i g ∧ area P a'.mmu.mem (a'.port i) = area P a.mmu.mem (a.port i) := by
  obtain ⟨hready, harea⟩ := h.ready.drives h.windowed hd fun slot hslot o _ ho => hW (32 * slot + o) (by omega)
  rw [hport]
  refine ⟨?_, harea⟩
  exact {
    windowed := hd.windowed
    room := hd.room
    ready := hport ▸ hready
    buffer := hbuffer
    held := hg
    apart := fun x => by
      rw [hport, harea]
      exact hapart x }

/-- Areas that stay where they are stay apart. -/
theorem DriverInv.of_areas (h : DriverInv P count r M) (hwindowed : Windowed P count a'.mmu M')
    (hroom : a'.mmu.stackPosition ≤ count)
    (hports : ∀ j ∈ r.up, Usable P count a' M' j a'.bufferFrame ∧
      area P a'.mmu.mem (a'.port j) = area P r.state.mmu.mem (r.state.port j)) :
    DriverInv P count { r with state := a' } M' where
  windowed := hwindowed
  room := hroom
  usable j hj := (hports j hj).1
  apart j hj k hk x y heq := by
    change area P a'.mmu.mem (a'.port j) x = area P a'.mmu.mem (a'.port k) y at heq
    rw [(hports j hj).2, (hports k hk).2] at heq
    exact h.apart j hj k hk x y heq

/-- **Others** do not write the lists of the ports. -/
theorem DriverInv.withMmu (h : DriverInv P count r M) (hd : Drives P count n W r.state.mmu s' M M')
    (hW : ∀ i ∈ r.up, ∀ o < 4096, (r.state.port i).commandListAddress + o ∉ W) :
    DriverInv P count (r.withMmu s') M' := by
  refine h.of_areas hd.windowed hd.room fun j hj => ?_
  have husable := h.usable j hj
  exact husable.carry (r.withMmu s').state hd (hW j hj) rfl husable.buffer (hd.keep _ husable.held) husable.apart

/-- **A command** leaves its own port as it was, and writes no list of another. -/
theorem DriverInv.kept (h : DriverInv P count r M) (hi : i ∈ r.up)
    (hkept : Kept P count r.state a' M i r.state.bufferFrame) : DriverInv P count { r with state := a' } M := by
  have husable := h.usable i hi
  have hframe : a'.bufferFrame = r.state.bufferFrame := bufferFrame_eq hkept.usable.buffer husable.held.low
  refine h.of_areas hkept.usable.windowed hkept.usable.room fun j hj => ?_
  rw [hframe]
  rcases eq_or_ne j i with rfl | hne
  · exact ⟨hkept.usable, hkept.area⟩
  · have husable' := h.usable j hj
    refine husable'.carry a' hkept.drives (fun o ho => ?_) (hkept.others j hne) hkept.usable.buffer husable.held
      husable'.apart
    refine husable.ready.not_mem_portWrites husable.held (husable'.ready.held .list) (husable'.apart .list) ?_ ho
    exact fun x heq => hne (h.apart i hi j hj x .list heq).symm

/-- **A port that is set up** gets frames that no other port has. -/
theorem DriverInv.setUp (h : DriverInv P count r M) (hport : PortSetUp P count r.state a' M M' i) :
    DriverInv P count ⟨a', i :: r.up⟩ M' := by
  obtain ⟨f, hbuffer, hheld, hfresh, hapart⟩ := hport.buffer
  have hframe := bufferFrame_eq hbuffer hheld.low
  have hnew : Usable P count a' M' i f :=
    ⟨hport.drives.windowed, hport.drives.room, hport.ready, hbuffer, hheld, hapart⟩
  have hold (j : ℕ) (hj : j ∈ r.up) (hne : j ≠ i) : Usable P count a' M' j f ∧
      area P a'.mmu.mem (a'.port j) = area P r.state.mmu.mem (r.state.port j) := by
    have husable := h.usable j hj
    refine husable.carry a' hport.drives (fun o _ => Set.notMem_empty _) (hport.others j hne) hbuffer hheld ?_
    exact fun x heq => hfresh (heq ▸ husable.ready.held x)
  -- an area of another port was taken before
  have hfar (j : ℕ) (hj : j ∈ r.up) (hne : j ≠ i) (x y : Area) :
      area P a'.mmu.mem (a'.port j) x ≠ area P a'.mmu.mem (a'.port i) y := by
    rw [(hold j hj hne).2]
    exact fun heq => hport.fresh y (heq ▸ (h.usable j hj).ready.held x)
  have hup (j : ℕ) (hj : j ∈ i :: r.up) (hne : j ≠ i) : j ∈ r.up := (List.mem_cons.mp hj).resolve_left hne
  refine ⟨hport.drives.windowed, hport.drives.room, fun j hj => ?_, fun j hj k hk x y heq => ?_⟩
  · change Usable P count a' M' j a'.bufferFrame
    rw [hframe]
    rcases eq_or_ne j i with rfl | hne
    · exact hnew
    · exact (hold j (hup j hj hne) hne).1
  · change area P a'.mmu.mem (a'.port j) x = area P a'.mmu.mem (a'.port k) y at heq
    rcases eq_or_ne j i with rfl | hne
    · by_contra hkj
      exact hfar k (hup k hk (Ne.symm hkj)) (Ne.symm hkj) y x heq.symm
    · rcases eq_or_ne k i with rfl | hne'
      · exact absurd heq (hfar j (hup j hj hne) hne x y)
      · rw [(hold j (hup j hj hne) hne).2, (hold k (hup k hk hne') hne').2] at heq
        exact h.apart j (hup j hj hne) k (hup k hk hne') x y heq

/-- What others write is not a table. -/
theorem Windowed.write {s : Kernel.Mmu.State} (h : Windowed P count s M) (hroom : s.stackPosition ≤ count) {w : ℕ}
    (hw : w + P.hhdmOffset ∉ Spare P count s) (x : UInt8) :
    Drives P count 0 {w} s (s.withMem (Function.update s.mem (w + P.hhdmOffset) x)) M M := by
  have hbyte (b : ℕ) (hb : b ≠ w + P.hhdmOffset) : Function.update s.mem (w + P.hhdmOffset) x b = s.mem b :=
    Function.update_of_ne hb ..
  have hentry : ∀ r q u j, (View.single P.kernelPml4).Path r q → q.length ≤ 3 →
      tableAt P s.mem r q = some u → j < 512 →
      entry (Function.update s.mem (w + P.hhdmOffset) x) u j = entry s.mem u j := by
    intro r q u j hq hlq hu hj
    obtain rfl : r = P.kernelPml4 := hq.1
    refine load64_congr fun c hc hc' => hbyte c ?_
    rintro rfl
    exact hw (.inl ⟨q, u, hq, hlq, hu, by omega, by omega⟩)
  exact {
    windowed := ⟨h.owned.congr fun q u j hq hlq hu hj => hentry _ q u j hq hlq hu hj, h.low, h.own⟩
    list := rfl
    le := le_rfl
    taken := le_rfl
    room := hroom
    keep := fun _ hf => hf
    tables := fun r q u hq hlq hu => .inl (by rwa [tableAt_congr hq hlq hentry] at hu)
    outside := fun b _ hb => hbyte b (hb w rfl) }

/-- **Step lemma**: a call keeps the invariant and writes what it may. -/
theorem DriverInv.step (h : DriverInv P count r M) {c : AhciCall} (hc : r.Allowed P count fuel c) :
    ∃ M', DriverInv P count (r.step P fuel c) M' ∧
      ∀ b ∉ r.Writes P count c, (r.step P fuel c).state.mmu.mem b = r.state.mmu.mem b := by
  -- a command of a port that was set up
  have hcommand (i : ℕ) (hi : i ∈ r.up) (a' : AhciState) (hkept : Kept P count r.state a' M i r.state.bufferFrame) :
      DriverInv P count { r with state := a' } M ∧
        ∀ b, b ∉ {b | ∃ w ∈ PortWrites P r.state.mmu.mem (r.state.port i) r.state.bufferFrame,
          b = w + P.hhdmOffset} → a'.mmu.mem b = r.state.mmu.mem b := by
    refine ⟨h.kept hi hkept, fun b hb => hkept.drives.outside b ?_ fun w hw heq => hb ⟨w, hw, heq⟩⟩
    exact fun hpos => absurd hpos (by decide)
  cases c with
  | initializeAhciPort i cs =>
    obtain ⟨hstops, hroom⟩ := hc
    obtain ⟨a', M', heq, hport⟩ := initializeAhciPort_spec (i := i) h.windowed hstops hroom
    rw [AhciRun.step, heq, Option.getD_some]
    refine ⟨M', h.setUp hport, fun b hb => hport.drives.outside b (fun _ => hb) fun w hw => ?_⟩
    exact absurd hw (Set.notMem_empty w)
  | ahciSendIdentify specificInfo d answer =>
    obtain ⟨hi, hreturns⟩ := hc
    obtain ⟨x, hx⟩ := Option.isSome_iff_exists.mp hreturns
    rw [AhciRun.step, hx]
    exact ⟨M, hcommand _ hi x.1 (ahciSendIdentify_kept (h.usable _ hi) rfl hx)⟩
  | ahciReadSector specificInfo offset d answer =>
    obtain ⟨hi, hreturns⟩ := hc
    obtain ⟨x, hx⟩ := Option.isSome_iff_exists.mp hreturns
    rw [AhciRun.step, hx]
    exact ⟨M, hcommand _ hi x.1 (ahciReadSector_kept (h.usable _ hi) rfl hx)⟩
  | kernelAllocateFrame =>
    obtain ⟨s', heq, hd, -⟩ := h.windowed.allocate hc
    rw [AhciRun.step, heq]
    refine ⟨M, h.withMmu hd fun _ _ _ _ => Set.notMem_empty _, fun b _ => ?_⟩
    rw [← congrArg Prod.snd heq]
    rfl
  | kernelMapMmio v pa =>
    obtain ⟨hv, hpage, haligned, hbelow, hroom⟩ := hc
    have hd := h.windowed.mapMmio hv haligned hbelow hroom fun hp => absurd hp hpage
    exact ⟨_, h.withMmu hd fun _ _ _ _ => Set.notMem_empty _,
      fun b hb => hd.outside b (fun _ => hb) fun w hw => absurd hw (Set.notMem_empty w)⟩
  | write w x =>
    obtain ⟨hspare, huses⟩ := hc
    have hd := h.windowed.write h.room hspare x
    refine ⟨M, h.withMmu hd fun i hi o ho heq => ?_, fun b hb => hd.outside b (fun hpos => absurd hpos (by decide)) ?_⟩
    · obtain rfl : _ = w := heq
      exact huses (.inr ⟨i, hi, .list, by rw [mem_frameBytes]; simp only [area]; omega⟩)
    · rintro _ rfl rfl
      exact hb rfl

/-! ## Runs -/

variable {cs : List AhciCall} {d : AhciDevice} {answer : AhciCommand → ℕ → Answer} {disk : Disk}
  {specificInfo : UInt64} {offset : Int64}

/-- Before a port is set up, all that is asked of the memory is that the window is the driver's. -/
theorem Windowed.driven (h : Windowed P count a.mmu M) (hroom : a.mmu.stackPosition ≤ count) :
    AhciRun.Driven P count ⟨a, []⟩ :=
  ⟨M, h, hroom, fun _ hi => absurd hi List.not_mem_nil, fun _ hi => absurd hi List.not_mem_nil⟩

theorem AhciRun.Driven.step (r : AhciRun) (c : AhciCall) (h : r.Driven P count) (hc : r.Allowed P count fuel c) :
    (r.step P fuel c).Driven P count := by
  obtain ⟨M, hinv⟩ := h
  obtain ⟨M', hinv', -⟩ := hinv.step hc
  exact ⟨M', hinv'⟩

theorem bootState_windowed (hcount : count ≤ 2 ^ 19) : Windowed bootPlatform count bootState (fun _ => none) := by
  have hpool : Pool bootPlatform count bootState := {
    aligned := fun k _ _ => by simp only [bootState]; omega
    below := fun k _ hk => by simp only [bootState]; omega
    disjoint := fun k _ hk => land_hhdm (by simp only [bootState]; omega)
    distinct := fun k l _ _ _ _ h => by simp only [bootState] at h; omega }
  have hunused (k : ℕ) (_ : bootState.stackPosition ≤ k) (hk : k < count) :
      Apart bootPlatform.kernelPml4 4096 (frameAt bootPlatform bootState k) 4096 := by
    simp only [Apart, frameAt, bootState, bootPlatform]
    omega
  exact {
    owned := {
      refines := Refines.empty hpool (fun i _ => bootState_entry i) hunused
      canonical := fun p hp => canonical_window hp
      distinct := fun p _ q _ f hf => absurd hf (by simp)
      tables := fun p _ f hf => absurd hf (by simp)
      unused := fun p _ f hf => absurd hf (by simp) }
    low := fun k _ hk => by simp only [bootState]; omega
    own := fun p _ f hf => absurd hf (by simp) }

/-- Setting up a port takes at most 144 frames. -/
theorem step_initialize {cs : ℕ → UInt32} (h : Windowed P count r.state.mmu M) (hstops : Stops cs fuel)
    (hroom : r.state.mmu.stackPosition + 144 ≤ count) :
    (r.step P fuel (.initializeAhciPort i cs)).state.mmu.stackPosition ≤ r.state.mmu.stackPosition + 144 := by
  obtain ⟨a', M', heq, hport⟩ := initializeAhciPort_spec (i := i) h hstops hroom
  rw [AhciRun.step, heq, Option.getD_some]
  exact hport.drives.taken

/-- A controller with ports that are not set up. -/
def idleController : AhciState where
  mmu := bootState
  port _ := ⟨0, 0, 0, 0, 0, 0, 0⟩
  bar5 := mmioAddress 0xFEB00000
  sataBuffer := 0

/-- A frame is taken for something else, and two ports are set up. -/
def twoPorts : List AhciCall :=
  [.kernelAllocateFrame, .initializeAhciPort 0 (fun _ => 0), .initializeAhciPort 1 (fun _ => 0)]

theorem twoPorts_allowed :
    Along (AhciRun.step bootPlatform 1) (AhciRun.Allowed bootPlatform 400 1) ⟨idleController, []⟩ twoPorts := by
  have hstops : Stops (fun _ => 0) 1 := ⟨4, by decide, by decide⟩
  obtain ⟨s, heq, hd, hpos, -⟩ := (bootState_windowed (by decide : 400 ≤ 2 ^ 19)).allocate (by decide)
  obtain rfl : s = (kernelAllocateFrame bootState).2 := (congrArg Prod.snd heq).symm
  have htaken := step_initialize (P := bootPlatform)
    (r := AhciRun.step bootPlatform 1 ⟨idleController, []⟩ .kernelAllocateFrame) (i := 0) hd.windowed hstops
    (by decide : 1 + 144 ≤ 400)
  exact ⟨(by decide : 0 < 400), ⟨hstops, (by decide : 1 + 144 ≤ 400)⟩,
    ⟨hstops, (Nat.add_le_add_right htaken 144).trans (by decide : 1 + 144 + 144 ≤ 400)⟩, trivial⟩

/-- A device that sends a sector of ones at once. -/
def promptAnswer : AhciCommand → ℕ → Answer := fun c round =>
  { data := markedDisk 7 c.commandFis.lba
    moved := promptDevice.moved round
    fis := fun _ => 0
    byteCount := fun _ => 0 }

end Cutesugar.Modules
