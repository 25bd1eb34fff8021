import Cutesugar.Modules.AhciWindow

/-!
# Setting up a port of the disk controller (`modules/ahci/ahci.c`)

A port works on memory that the driver gives it by physical addresses: a list of 32 commands, an area for
what the device answers, and for each command a table. `InitializeAhciPort` takes 36 frames for this, of
which it never uses the first, and writes their addresses in 32 bits.

- `initializeAhciPort`: the function, over the values that are read from `command_and_status`.
- `area`: the areas as the port and the list name them.
- `initializeAhciPort_spec`: they are frames of their own, and nothing else is written.
-/

namespace Cutesugar.Modules

open Kernel.Mmu Lib Lib.Memory

/-! ## The function -/

/-- The registers of a port that the driver writes. -/
structure HbaPort where
  commandListAddress : ℕ
  claUpper : ℕ
  fisAddress : ℕ
  fisUpper : ℕ
  interruptStatus : ℕ
  commandAndStatus : UInt32
  commandIssue : ℕ

/-- The kernel's memory with the ports, and the variables of the driver. -/
structure AhciState where
  mmu : Kernel.Mmu.State
  port : ℕ → HbaPort
  bar5 : ℕ
  sataBuffer : ℕ

/-- The loop that waits until the port has stopped, from a read of `command_and_status` on; it reads a second
time if the first read does not decide. The result is the next read. -/
def waitStopped (cs : ℕ → UInt32) : ℕ → ℕ → Option ℕ
  | 0, _ => none
  | fuel + 1, n =>
    if cs n &&& 0x4000 ≠ 0 then waitStopped cs fuel (n + 1)
    else if cs (n + 1) &&& 0x8000 ≠ 0 then waitStopped cs fuel (n + 2)
    else some (n + 2)

/-- The loop that waits before the port is started. -/
def waitIdle (cs : ℕ → UInt32) : ℕ → ℕ → Option ℕ
  | 0, _ => none
  | fuel + 1, n => if cs n &&& 0x8000 ≠ 0 then waitIdle cs fuel (n + 1) else some (n + 1)

variable (P : Platform)

/-- One round of the loop over the command headers, which are at `headers`. -/
def initializeHeader (headers i : ℕ) (s : Kernel.Mmu.State) : Option Kernel.Mmu.State := do
  let s ← storeAt P s (headers + (32 * i + 2)) 2 8
  let (frame, s) := kernelAllocateFrame s
  let s ← storeAt P s (headers + (32 * i + 8)) 4 frame
  -- the field is read back, so it is its 32 bits that are mapped
  let ctd ← loadAt P s (headers + (32 * i + 8)) 4
  let s := kernelMapMmio P s (mmioAddress ctd) ctd
  let s ← storeAt P s (headers + (32 * i + 12)) 4 0
  let ctd ← loadAt P s (headers + (32 * i + 8)) 4
  memsetAt P s (mmioAddress ctd) 0 256

/-- The rounds that are left, from a header on. -/
def initializeHeaders (headers : ℕ) : ℕ → ℕ → Kernel.Mmu.State → Option Kernel.Mmu.State
  | 0, _, s => some s
  | left + 1, i, s => do
    let s ← initializeHeader P headers i s
    initializeHeaders headers left (i + 1) s

/-- `InitializeAhciPort` for an entry of `hba_port`; `none` is a fault, or the device does not stop. -/
def initializeAhciPort (fuel : ℕ) (cs : ℕ → UInt32) (a : AhciState) (i : ℕ) : Option AhciState := do
  let (ahciBase, s) := kernelAllocateFrame a.mmu
  let s := kernelMapMmio P s (mmioAddress ahciBase) ahciBase
  -- two reads belong to the assignments that stop the port
  let n ← waitStopped cs fuel 2
  let (frame, s) := kernelAllocateFrame s
  let commandListAddress := frame % 2 ^ 32
  let s := kernelMapMmio P s (mmioAddress commandListAddress) commandListAddress
  let (frame, s) := kernelAllocateFrame s
  let fisAddress := frame % 2 ^ 32
  let s := kernelMapMmio P s (mmioAddress fisAddress) fisAddress
  let s ← memsetAt P s (mmioAddress fisAddress) 0 256
  let s ← initializeHeaders P (mmioAddress commandListAddress) 32 0 s
  let (frame, s) := kernelAllocateFrame s
  let sataBuffer := mmioAddress frame
  let s := kernelMapMmio P s sataBuffer ((sataBuffer + (2 ^ 64 - mmioOffset)) % 2 ^ 64)
  let n ← waitIdle cs fuel n
  let port :=
    { a.port i with
      commandListAddress := commandListAddress
      claUpper := 0
      fisAddress := fisAddress
      fisUpper := 0
      commandAndStatus := cs (n + 1) ||| 0x10 }
  some { a with mmu := s, port := Function.update a.port i port, sataBuffer := sataBuffer }

/-! ## The areas of a port -/

/-- What a port works on. -/
inductive Area where
  | list
  | fis
  | table (slot : Fin 32)

/-- `ctd_base_address` of a header. -/
def tableOf (m : Memory) (list slot : ℕ) : ℕ := m.load (list + P.hhdmOffset + (32 * slot + 8)) 4

/-- `ctd_base_upper` of a header. -/
def tableUpper (m : Memory) (list slot : ℕ) : ℕ := m.load (list + P.hhdmOffset + (32 * slot + 12)) 4

/-- The address of an area, from the registers and from the list. -/
def area (m : Memory) (p : HbaPort) : Area → ℕ
  | .list => p.commandListAddress
  | .fis => p.fisAddress
  | .table slot => tableOf P m p.commandListAddress slot

/-- **A port that is ready**: its areas are frames that were taken, each another one, and 32 bits are all of
their addresses. -/
structure PortReady (M : PageMap) (m : Memory) (p : HbaPort) : Prop where
  held : ∀ x, Held M (area P m p x)
  injective : Function.Injective (area P m p)
  claUpper : p.claUpper = 0
  fisUpper : p.fisUpper = 0
  tableUpper : ∀ slot < 32, tableUpper P m p.commandListAddress slot = 0

/-- The device stops when it is told to, and the last loop ends. -/
def Stops (cs : ℕ → UInt32) (fuel : ℕ) : Prop :=
  ∃ n, waitStopped cs fuel 2 = some n ∧ (waitIdle cs fuel n).isSome

variable {P} {count : ℕ} {s s' : Kernel.Mmu.State} {M M' : PageMap} {list i left : ℕ}

/-! ## The headers -/

/-- Frames at different places have no byte in common. -/
theorem Held.not_mem_frameBytes {f g o width : ℕ} (hf : Held M f) (hg : Held M' g) (hne : f ≠ g) {w : ℕ}
    (hw : w < 4096) (ho : o + width ≤ 4096) : f + w ∉ FrameBytes g o width := by
  rintro ⟨hle, hlt⟩
  have haligned := hf.aligned
  have haligned' := hg.aligned
  omega

/-- **One header** gets the frame that is next in the pool. -/
theorem initializeHeader_spec (h : Windowed P count s M) (hlist : Held M list) (hi : i < 32)
    (hroom : s.stackPosition + 4 ≤ count) :
    ∃ s' M', initializeHeader P (mmioAddress list) i s = some s' ∧
      Drives P count 4 (FrameBytes list (32 * i) 32) s s' M M' ∧ s.stackPosition < s'.stackPosition ∧
      Held M' (s.memList s.stackPosition) ∧ tableOf P s'.mem list i = s.memList s.stackPosition ∧
      tableUpper P s'.mem list i = 0 := by
  have hnot := h.not_held (le_refl s.stackPosition) (by omega)
  -- the length of the table
  obtain ⟨s₁, hstore₁, hd₁, hpos₁, -⟩ := h.storeAt (o := 32 * i + 2) (l := 2) (by omega) hlist (by omega) 8
  -- the frame of the table
  obtain ⟨s₂, hallocate, hd₂, hpos₂, hunused, hlow, haligned⟩ := hd₁.windowed.allocate (by omega)
  rw [hd₁.list, hpos₁] at hallocate hunused hlow haligned
  generalize ht : s.memList s.stackPosition = t at *
  -- its address is written, and read back
  obtain ⟨s₃, hstore₃, hd₃, hpos₃, hmem₃⟩ := hd₂.windowed.storeAt (o := 32 * i + 8) (l := 4) hd₂.room hlist
    (by omega) t
  have htable₃ : s₃.mem.load (list + P.hhdmOffset + (32 * i + 8)) 4 = t := by
    rw [hmem₃, load_store_same, Nat.mod_eq_of_lt (by omega)]
  have hload₃ := hd₃.windowed.loadAt hlist (o := 32 * i + 8) (l := 4) (by omega)
  rw [htable₃] at hload₃
  obtain ⟨s₄, M', hmap, hd₄, hheld⟩ := hd₃.windowed.mapWindow hlow haligned (hd₃.unused hpos₃ hunused) (by omega)
  have hlist₄ := hd₄.keep list hlist
  obtain ⟨s₅, hstore₅, hd₅, -, hmem₅⟩ := hd₄.windowed.storeAt (o := 32 * i + 12) (l := 4) hd₄.room hlist₄
    (by omega) 0
  have hupper₅ : s₅.mem.load (list + P.hhdmOffset + (32 * i + 12)) 4 = 0 := by
    rw [hmem₅, load_store_same]
    rfl
  have htable₅ : s₅.mem.load (list + P.hhdmOffset + (32 * i + 8)) 4 = t := by
    rw [(hd₄.trans hd₅).load_eq hd₃.windowed hlist (by omega), htable₃]
    intro j hj hw
    rw [Set.empty_union, mem_frameBytes] at hw
    omega
  have hload₅ := hd₅.windowed.loadAt hlist₄ (o := 32 * i + 8) (l := 4) (by omega)
  rw [htable₅] at hload₅
  -- the table is cleared, which the list is not
  obtain ⟨s₆, hclear, hd₆, -, -⟩ := hd₅.windowed.memsetAt (o := 0) (l := 256) hd₅.room hheld (by decide)
  rw [Nat.add_zero] at hclear
  have hne : list ≠ t := by
    rintro rfl
    exact hnot hlist
  have hkeep (o : ℕ) (ho : o + 4 ≤ 4096) : s₆.mem.load (list + P.hhdmOffset + o) 4 =
      s₅.mem.load (list + P.hhdmOffset + o) 4 := by
    refine hd₆.load_eq hd₅.windowed hlist₄ ho fun j hj => ?_
    rw [Nat.add_assoc]
    exact hlist₄.not_mem_frameBytes hheld hne (by omega) (by decide)
  have hd := ((((hd₁.trans hd₂).trans hd₃).trans hd₄).trans hd₅).trans hd₆
  refine ⟨s₆, M', ?_, hd.mono (by decide) ?_, ?_, hheld, ?_, ?_⟩
  · rw [initializeHeader, hstore₁, Option.bind_eq_bind, Option.bind_some, hallocate]
    dsimp only
    rw [hstore₃, Option.bind_eq_bind, Option.bind_some, hload₃, Option.bind_some, hmap, hstore₅, Option.bind_some,
      hload₅, Option.bind_some, hclear]
  · -- what is written is in the header, or in the frame that was taken
    intro w hw
    simp only [Set.union_empty, Set.mem_union, mem_frameBytes] at hw ⊢
    rcases hw with hheader | htable
    · exact .inl (by omega)
    · exact .inr ⟨by decide, s.stackPosition, le_rfl, by omega, by omega, by omega⟩
  · have hle := (((hd₃.trans hd₄).trans hd₅).trans hd₆).le
    omega
  · rw [tableOf, hkeep _ (by omega), htable₅]
  · rw [tableUpper, hkeep _ (by omega), hupper₅]

/-- The headers from one on have tables, each another frame of those that were left. -/
structure HeadersReady (P : Platform) (s s' : Kernel.Mmu.State) (M' : PageMap) (list i left : ℕ) : Prop where
  table : ∀ slot, i ≤ slot → slot < i + left → ∃ k, s.stackPosition ≤ k ∧ k < s'.stackPosition ∧
    tableOf P s'.mem list slot = s.memList k ∧ Held M' (s.memList k)
  upper : ∀ slot, i ≤ slot → slot < i + left → tableUpper P s'.mem list slot = 0
  distinct : ∀ slot slot', i ≤ slot → slot < slot' → slot' < i + left →
    tableOf P s'.mem list slot ≠ tableOf P s'.mem list slot'

/-- **The headers** of a list, by induction on how many are left. -/
theorem initializeHeaders_spec (h : Windowed P count s M) (hlist : Held M list) (hi : i + left ≤ 32)
    (hroom : s.stackPosition + 4 * left ≤ count) :
    ∃ s' M', initializeHeaders P (mmioAddress list) left i s = some s' ∧
      Drives P count (4 * left) (FrameBytes list (32 * i) (32 * left)) s s' M M' ∧
      HeadersReady P s s' M' list i left := by
  induction left generalizing s M i with
  | zero =>
    refine ⟨s, M, rfl, (Drives.refl h hroom).mono le_rfl (by simp), ?_⟩
    exact ⟨fun slot hle hlt => absurd hlt (by omega), fun slot hle hlt => absurd hlt (by omega),
      fun slot slot' hle hlt hlt' => absurd hlt' (by omega)⟩
  | succ left ih =>
    obtain ⟨s₁, M₁, hheader, hd₁, hpos₁, hheld₁, htable₁, hupper₁⟩ :=
      initializeHeader_spec h hlist (i := i) (by omega) (by omega)
    have htaken := hd₁.taken
    have hlist₁ := hd₁.keep list hlist
    obtain ⟨s', M', hheaders, hd, hready⟩ := ih hd₁.windowed hlist₁ (i := i + 1) (by omega) (by omega)
    -- the header stays when the others are written
    have hkeep (o : ℕ) (ho : o + 4 ≤ 32) : s'.mem.load (list + P.hhdmOffset + (32 * i + o)) 4 =
        s₁.mem.load (list + P.hhdmOffset + (32 * i + o)) 4 := by
      refine hd.load_eq hd₁.windowed hlist₁ (by omega) fun j hj hw => ?_
      rw [mem_frameBytes] at hw
      omega
    have htable : tableOf P s'.mem list i = s.memList s.stackPosition := (hkeep 8 (by decide)).trans htable₁
    refine ⟨s', M', ?_, (hd₁.trans hd).mono (by omega) ?_, ?_, ?_, ?_⟩
    · rw [initializeHeaders, hheader, Option.bind_eq_bind, Option.bind_some, hheaders]
    · intro w hw
      rw [Set.mem_union, mem_frameBytes, mem_frameBytes] at hw
      rw [mem_frameBytes]
      exact .inl (by omega)
    · intro slot hle hlt
      rcases Nat.eq_or_lt_of_le hle with rfl | hlt'
      · exact ⟨s.stackPosition, le_rfl, hpos₁.trans_le hd.le, htable, hd.keep _ hheld₁⟩
      · obtain ⟨k, hk, hk', heq, hheld⟩ := hready.table slot hlt' (by omega)
        rw [hd₁.list] at heq hheld
        exact ⟨k, by omega, hk', heq, hheld⟩
    · intro slot hle hlt
      rcases Nat.eq_or_lt_of_le hle with rfl | hlt'
      · exact (hkeep 12 (by decide)).trans hupper₁
      · exact hready.upper slot hlt' (by omega)
    · intro slot slot' hle hlt hlt'
      rcases Nat.eq_or_lt_of_le hle with rfl | hnext
      · -- a frame that is taken later is another one
        obtain ⟨k, hk, hk', heq, -⟩ := hready.table slot' hlt (by omega)
        rw [htable, heq, hd₁.list]
        intro hsame
        have hroom' := hd.room
        have hfirst := h.owned.refines.forest.pool.distinct _ k le_rfl (by omega) (by omega) (by omega) hsame
        omega
      · exact hready.distinct slot slot' hnext hlt (by omega)

/-! ## The port -/

theorem sub_mmioOffset {f : ℕ} (hlow : f < 2 ^ 32) : (mmioAddress f + (2 ^ 64 - mmioOffset)) % 2 ^ 64 = f := by
  have hlt : mmioOffset + 2 ^ 32 < 2 ^ 64 := by decide
  unfold mmioAddress
  generalize mmioOffset = c at *
  omega

/-- What `InitializeAhciPort` leaves: the port has the areas, and the buffer for sectors is one more frame. -/
structure PortSetUp (P : Platform) (count : ℕ) (a a' : AhciState) (M M' : PageMap) (i : ℕ) : Prop where
  drives : Drives P count 144 ∅ a.mmu a'.mmu M M'
  ready : PortReady P M' a'.mmu.mem (a'.port i)
  fresh : ∀ x, ¬ Held M (area P a'.mmu.mem (a'.port i) x)
  others : ∀ j, j ≠ i → a'.port j = a.port j
  bar5 : a'.bar5 = a.bar5
  buffer : ∃ f, a'.sataBuffer = mmioAddress f ∧ Held M' f ∧ ¬ Held M f ∧ ∀ x, area P a'.mmu.mem (a'.port i) x ≠ f

/-- A port is ready if its tables are frames of their own, other than the list and the area for answers. -/
theorem portReady_of_tables {m : Memory} {p : HbaPort} (hlist : Held M p.commandListAddress)
    (hfis : Held M p.fisAddress) (hne : p.commandListAddress ≠ p.fisAddress) (hcla : p.claUpper = 0)
    (hfisUpper : p.fisUpper = 0)
    (htable : ∀ slot < 32, Held M (tableOf P m p.commandListAddress slot) ∧
      tableOf P m p.commandListAddress slot ≠ p.commandListAddress ∧
      tableOf P m p.commandListAddress slot ≠ p.fisAddress)
    (hupper : ∀ slot < 32, tableUpper P m p.commandListAddress slot = 0)
    (hdistinct : ∀ slot slot', slot < slot' → slot' < 32 →
      tableOf P m p.commandListAddress slot ≠ tableOf P m p.commandListAddress slot') : PortReady P M m p where
  held := by
    intro x
    cases x with
    | list => exact hlist
    | fis => exact hfis
    | table slot => exact (htable slot slot.isLt).1
  injective := by
    intro x y heq
    cases x with
    | list =>
      cases y with
      | list => rfl
      | fis => exact absurd heq hne
      | table slot => exact absurd heq.symm (htable slot slot.isLt).2.1
    | fis =>
      cases y with
      | list => exact absurd heq.symm hne
      | fis => rfl
      | table slot => exact absurd heq.symm (htable slot slot.isLt).2.2
    | table slot =>
      cases y with
      | list => exact absurd heq (htable slot slot.isLt).2.1
      | fis => exact absurd heq (htable slot slot.isLt).2.2
      | table slot' =>
        rcases Nat.lt_trichotomy slot slot' with hlt | hslot | hgt
        · exact absurd heq (hdistinct slot slot' hlt slot'.isLt)
        · rw [Fin.ext hslot]
        · exact absurd heq.symm (hdistinct slot' slot hgt slot.isLt)
  claUpper := hcla
  fisUpper := hfisUpper
  tableUpper := hupper

/-- **Setting up a port** takes 36 frames and the tables that map them, and writes nothing else. -/
theorem initializeAhciPort_spec {a : AhciState} {fuel : ℕ} {cs : ℕ → UInt32} (h : Windowed P count a.mmu M)
    (hstops : Stops cs fuel) (hroom : a.mmu.stackPosition + 144 ≤ count) :
    ∃ a' M', initializeAhciPort P fuel cs a i = some a' ∧ PortSetUp P count a a' M M' i := by
  obtain ⟨n, hstopped, hidle⟩ := hstops
  obtain ⟨n', hidle⟩ := Option.isSome_iff_exists.mp hidle
  -- the frame that is not used
  obtain ⟨u₁, s₁, M₁, hbase, hmap₁, hd₁, hpos₁, -⟩ := h.take (by omega) rfl
  have htaken₁ := hd₁.taken
  have hl₁ := hd₁.list
  -- the list
  obtain ⟨list, hkl⟩ : ∃ list, a.mmu.memList s₁.stackPosition = list := ⟨_, rfl⟩
  obtain ⟨u₂, s₂, M₂, hlist, hmap₂, hd₂, hpos₂, hheldList₂⟩ := hd₁.windowed.take (by omega) (by rw [hl₁, hkl])
  have htaken₂ := hd₂.taken
  have hl₂ := hd₂.list.trans hl₁
  -- the area for answers
  obtain ⟨fis, hkf⟩ : ∃ fis, a.mmu.memList s₂.stackPosition = fis := ⟨_, rfl⟩
  obtain ⟨u₃, s₃, M₃, hfis, hmap₃, hd₃, hpos₃, hheldFis₃⟩ := hd₂.windowed.take (by omega) (by rw [hl₂, hkf])
  have htaken₃ := hd₃.taken
  obtain ⟨s₄, hclear, hd₄, hpos₄, -⟩ := hd₃.windowed.memsetAt (o := 0) (l := 256) hd₃.room hheldFis₃ (by decide)
  rw [Nat.add_zero] at hclear
  have hl₄ := hd₄.list.trans (hd₃.list.trans hl₂)
  -- the tables
  have hheldList₄ := hd₃.keep _ hheldList₂
  obtain ⟨s₅, M₅, hheaders, hd₅, hready⟩ :=
    initializeHeaders_spec hd₄.windowed hheldList₄ (i := 0) (show 0 + 32 ≤ 32 by decide) (by omega)
  have htaken₅ := hd₅.taken
  have hle₅ := hd₅.le
  have hl₅ := hd₅.list.trans hl₄
  -- the buffer for sectors
  obtain ⟨buffer, hkb⟩ : ∃ buffer, a.mmu.memList s₅.stackPosition = buffer := ⟨_, rfl⟩
  obtain ⟨u₆, s₆, M₆, hbuffer, hmap₆, hd₆, -, hheldBuffer⟩ := hd₅.windowed.take (by omega) (by rw [hl₅, hkb])
  have hroom₆ := hd₆.room
  have hd := ((((hd₁.trans hd₂).trans hd₃).trans hd₄).trans hd₅).trans hd₆
  have hheldList₅ := hd₅.keep _ hheldList₄
  have hheldList := hd₆.keep _ hheldList₅
  have hheldFis := hd₆.keep _ (hd₅.keep _ (hd₄.keep _ hheldFis₃))
  have hmodList := Nat.mod_eq_of_lt hheldList.low
  have hmodFis := Nat.mod_eq_of_lt hheldFis.low
  have hsub := sub_mmioOffset hheldBuffer.low
  -- a frame that is taken later is another one
  have hdistinct (k l : ℕ) (hk : a.mmu.stackPosition ≤ k) (hkl : k < l) (hl : l < count) :
      a.mmu.memList k ≠ a.mmu.memList l := fun heq =>
    absurd (h.owned.refines.forest.pool.distinct k l hk (hkl.trans hl) (by omega) hl heq) hkl.ne
  -- the list stays as it is when the buffer is mapped
  have hkeep (slot : ℕ) (hslot : slot < 32) (o : ℕ) (ho : o + 4 ≤ 32) :
      s₆.mem.load (list + P.hhdmOffset + (32 * slot + o)) 4 = s₅.mem.load (list + P.hhdmOffset + (32 * slot + o)) 4 :=
    hd₆.load_eq hd₅.windowed hheldList₅ (by omega) fun j hj => Set.notMem_empty _
  have htable (slot : ℕ) (hslot : slot < 32) : ∃ k, s₄.stackPosition ≤ k ∧ k < s₅.stackPosition ∧
      tableOf P s₆.mem list slot = a.mmu.memList k ∧ Held M₆ (a.mmu.memList k) := by
    obtain ⟨k, hk, hk', heq, hheld⟩ := hready.table slot (Nat.zero_le _) (by omega)
    rw [hl₄] at heq hheld
    exact ⟨k, hk, hk', (hkeep slot hslot 8 (by decide)).trans heq, hd₆.keep _ hheld⟩
  let port : HbaPort :=
    { a.port i with
      commandListAddress := list
      claUpper := 0
      fisAddress := fis
      fisUpper := 0
      commandAndStatus := cs (n' + 1) ||| 0x10 }
  -- each area is a frame of the pool from before the buffer
  have harea (x : Area) : ∃ k, a.mmu.stackPosition ≤ k ∧ k < s₅.stackPosition ∧
      area P s₆.mem port x = a.mmu.memList k := by
    cases x with
    | list => exact ⟨_, hpos₁.le, by omega, hkl.symm⟩
    | fis => exact ⟨_, hpos₁.le.trans hpos₂.le, by omega, hkf.symm⟩
    | table slot =>
      obtain ⟨k, hk, hk', heq, -⟩ := htable slot slot.isLt
      exact ⟨k, by omega, hk', heq⟩
  have hportReady : PortReady P M₆ s₆.mem port := by
    refine portReady_of_tables hheldList hheldFis ?_ rfl rfl (fun slot hslot => ?_) (fun slot hslot => ?_)
      fun slot slot' hlt hlt' => ?_
    · change list ≠ fis
      rw [← hkl, ← hkf]
      exact hdistinct _ _ hpos₁.le hpos₂ (by omega)
    · obtain ⟨k, hk, hk', heq, hheld⟩ := htable slot hslot
      change Held M₆ (tableOf P s₆.mem list slot) ∧ tableOf P s₆.mem list slot ≠ list ∧
        tableOf P s₆.mem list slot ≠ fis
      rw [heq, ← hkl, ← hkf]
      exact ⟨hheld, (hdistinct _ k hpos₁.le (by omega) (by omega)).symm,
        (hdistinct _ k (by omega) (by omega) (by omega)).symm⟩
    · exact (hkeep slot hslot 12 (by decide)).trans (hready.upper slot (Nat.zero_le _) (by omega))
    · have hslot : slot < 32 := hlt.trans hlt'
      change tableOf P s₆.mem list slot ≠ tableOf P s₆.mem list slot'
      rw [show tableOf P s₆.mem list slot = _ from hkeep slot hslot 8 (by decide),
        show tableOf P s₆.mem list slot' = _ from hkeep slot' hlt' 8 (by decide)]
      exact hready.distinct slot slot' (Nat.zero_le _) hlt (by omega)
  refine ⟨{ a with mmu := s₆, port := Function.update a.port i port, sataBuffer := mmioAddress buffer }, M₆, ?_, ?_⟩
  · rw [initializeAhciPort, hbase]
    dsimp only
    rw [hmap₁, hstopped, Option.bind_eq_bind, Option.bind_some, hlist]
    dsimp only
    rw [hmodList, hmap₂, hfis]
    dsimp only
    rw [hmodFis, hmap₃, hclear, Option.bind_eq_bind, Option.bind_some, hheaders, Option.bind_some, hbuffer]
    dsimp only
    rw [hsub, hmap₆, hidle, Option.bind_some]
  · have hport : Function.update a.port i port i = port := Function.update_self ..
    refine
      { drives := hd.mono (by decide) fun w hw => ?_
        ready := ?_
        fresh := fun x => ?_
        others := fun j hj => Function.update_of_ne hj ..
        bar5 := rfl
        buffer := ⟨buffer, rfl, hheldBuffer, ?_, fun x => ?_⟩ }
    · simp only [Set.empty_union, Set.union_empty, Set.mem_union, mem_frameBytes] at hw
      rcases hw with hw | hw
      · exact .inr ⟨by decide, s₂.stackPosition, by omega, by omega, by rw [hkf]; omega, by rw [hkf]; omega⟩
      · exact .inr ⟨by decide, s₁.stackPosition, hpos₁.le, by omega, by rw [hkl]; omega, by rw [hkl]; omega⟩
    · change PortReady P M₆ s₆.mem (Function.update a.port i port i)
      rw [hport]
      exact hportReady
    · obtain ⟨k, hk, hk', heq⟩ := harea x
      change ¬ Held M (area P s₆.mem (Function.update a.port i port i) x)
      rw [hport, heq]
      exact h.not_held hk (by omega)
    · rw [← hkb]
      exact h.not_held (by omega) (by omega)
    · obtain ⟨k, hk, hk', heq⟩ := harea x
      change area P s₆.mem (Function.update a.port i port i) x ≠ buffer
      rw [hport, heq, ← hkb]
      exact hdistinct k _ hk hk' (by omega)

end Cutesugar.Modules
