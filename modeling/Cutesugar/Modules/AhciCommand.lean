import Cutesugar.Modules.AhciPort

/-!
# Commands of the disk driver in memory (`modules/ahci/ahci.c`)

Both functions that issue a command write it through the window: fields of the header in the list, and the
table that the header names, which is cleared first. The device takes it from physical memory, where it finds
the header by the address in the port and the table by the address in the header, and puts what it sends where
the table says.

- `buildCommand`: what both functions write.
- `deviceCommand`, `deviceWrites`: what the device reads and writes.
- `AhciState.ahciSendIdentify`, `AhciState.ahciReadSector`: the functions.
- `buildCommand_spec`: the command is written into the areas of the port, and the device reads what was written.
-/

namespace Cutesugar.Modules

open Kernel.Mmu Lib Lib.Memory

/-! ## Fields -/

/-- An assignment to a field of a structure, with the value it has before. -/
structure Assignment where
  offset : ℕ
  width : ℕ
  value : ℕ → ℕ

variable (P : Platform)

/-- An assignment through the window to a structure at an address. -/
def assign (base : ℕ) (s : Kernel.Mmu.State) (x : Assignment) : Option Kernel.Mmu.State := do
  let old ← loadAt P s (base + x.offset) x.width
  storeAt P s (base + x.offset) x.width (x.value old)

/-- Assignments one after the other. -/
def assignAll (base : ℕ) : List Assignment → Kernel.Mmu.State → Option Kernel.Mmu.State
  | [], s => some s
  | x :: xs, s => do
    let s ← assign P base s x
    assignAll base xs s

/-- The assignments to the command header. Those to `header_1`, of which there are two, are taken together. -/
def headerFields : List Assignment :=
  [{ offset := 0, width := 1, value := fun old => (old ||| (20 / 4 &&& 0x1F)) &&& (0xFF - 2 ^ 6) },
    { offset := 2, width := 2, value := fun _ => 1 }]

/-- The assignments of `AhciSendIdentify` to the table. -/
def identifyFields (sataBuffer : ℕ) : List Assignment :=
  [{ offset := 128, width := 4, value := fun _ => sataBuffer + (2 ^ 64 - mmioOffset) },
    { offset := 140, width := 4, value := fun old => old ||| 511 ||| 2 ^ 31 },
    { offset := 0, width := 1, value := fun _ => 0x27 },
    { offset := 1, width := 1, value := fun old => old ||| 2 ^ 7 },
    { offset := 2, width := 1, value := fun _ => 0xEC },
    { offset := 7, width := 1, value := fun _ => 0 }]

/-- The assignments of `AhciReadSectorInner` to the table. -/
def readFields (sataBuffer : ℕ) (start : Int64) : List Assignment :=
  [{ offset := 128, width := 4, value := fun _ => sataBuffer },
    { offset := 140, width := 4, value := fun old => (old ||| 511) &&& (2 ^ 32 - 1 - 2 ^ 31) },
    { offset := 0, width := 1, value := fun _ => 0x27 },
    { offset := 1, width := 1, value := fun old => old ||| 2 ^ 7 },
    { offset := 2, width := 1, value := fun _ => 0x25 },
    { offset := 4, width := 1, value := fun _ => (lbaByte start 0).toNat },
    { offset := 5, width := 1, value := fun _ => (lbaByte start 8).toNat },
    { offset := 6, width := 1, value := fun _ => (lbaByte start 16).toNat },
    { offset := 8, width := 1, value := fun _ => (lbaByte start 24).toNat },
    { offset := 9, width := 1, value := fun _ => (lbaByte start 32).toNat },
    { offset := 10, width := 1, value := fun _ => (lbaByte start 40).toNat },
    { offset := 12, width := 2, value := fun _ => 1 },
    { offset := 7, width := 1, value := fun _ => 2 ^ 6 }]

/-- What both functions write for the command of a slot: the header, and the table that it names. -/
def buildCommand (headers slot : ℕ) (fields : List Assignment) (s : Kernel.Mmu.State) :
    Option Kernel.Mmu.State := do
  let s ← assignAll P (headers + 32 * slot) headerFields s
  let ctd ← loadAt P s (headers + (32 * slot + 8)) 4
  let s ← memsetAt P s (mmioAddress ctd) 0 160
  assignAll P (mmioAddress ctd) fields s

/-! ## The device -/

/-- The command of a slot as the device finds it, from the registers of the port on. -/
def deviceCommand (m : Memory) (p : HbaPort) (slot : ℕ) : AhciCommand :=
  let header := p.commandListAddress + 2 ^ 32 * p.claUpper + P.hhdmOffset + 32 * slot
  let table := m.load (header + 8) 4 + 2 ^ 32 * m.load (header + 12) 4 + P.hhdmOffset
  { header1 := m header
    prdTableLength := UInt16.ofNat (m.load (header + 2) 2)
    dataBaseAddress := UInt32.ofNat (m.load (table + 128) 4)
    dataBaseUpper := UInt32.ofNat (m.load (table + 132) 4)
    byteCountAndInterruptOnCompletion := UInt32.ofNat (m.load (table + 140) 4)
    commandFis :=
      { fisType := m table
        multiplierAndCc := m (table + 1)
        command := m (table + 2)
        lba0 := m (table + 4)
        lba1 := m (table + 5)
        lba2 := m (table + 6)
        device := m (table + 7)
        lba3 := m (table + 8)
        lba4 := m (table + 9)
        lba5 := m (table + 10)
        count := UInt16.ofNat (m.load (table + 12) 2) } }

/-- What the device sends: the bytes that were asked for and how many of them, what it puts into the area for
answers, and the number it writes into the header. -/
structure Answer where
  data : ℕ → UInt8
  moved : ℕ
  fis : ℕ → UInt8
  byteCount : ℕ → UInt8

/-- The memory after the device has answered the command of a slot. -/
def deviceWrites (m : Memory) (p : HbaPort) (slot : ℕ) (x : Answer) : Memory := fun b =>
  let c := deviceCommand P m p slot
  let header := p.commandListAddress + 2 ^ 32 * p.claUpper + P.hhdmOffset + 32 * slot
  let fis := p.fisAddress + 2 ^ 32 * p.fisUpper + P.hhdmOffset
  if c.base + P.hhdmOffset ≤ b ∧ b < c.base + P.hhdmOffset + min x.moved c.length then
    x.data (b - (c.base + P.hhdmOffset))
  else if fis ≤ b ∧ b < fis + 256 then x.fis (b - fis)
  else if header + 4 ≤ b ∧ b < header + 8 then x.byteCount (b - (header + 4))
  else m b

/-! ## The functions -/

/-- The driver without the memory it works in. -/
def AhciState.driver (a : AhciState) (i : ℕ) : AhciDriver :=
  let frame := (a.sataBuffer + (2 ^ 64 - mmioOffset)) % 2 ^ 64
  { bar5 := a.bar5
    frame := frame
    buffer := fun k => a.mmu.mem (frame + P.hhdmOffset + k)
    header1 := fun slot => a.mmu.mem ((a.port i).commandListAddress + P.hhdmOffset + 32 * slot) }

/-- The state in which both functions look for a slot. -/
def AhciState.cleared (a : AhciState) (i : ℕ) (s : Kernel.Mmu.State) : AhciState :=
  { a with mmu := s, port := Function.update a.port i { a.port i with interruptStatus := 0xFFFFFFFF } }

/-- The state in which the command of a slot was issued and answered. -/
def AhciState.answered (a : AhciState) (i slot : ℕ) (s : Kernel.Mmu.State) (x : Answer) : AhciState :=
  { a with
    mmu := s.withMem (deviceWrites P s.mem (a.port i) slot x)
    port := Function.update a.port i { a.port i with commandIssue := 2 ^ slot } }

/-- What is found at `sata_buffer`. -/
def AhciState.sector (a : AhciState) (printed : List String) : SectorRead :=
  { address := a.sataBuffer
    buffer := fun k => (byteAt P a.mmu.mem P.kernelPml4 ((a.sataBuffer + k) % 2 ^ 64)).getD 0
    printed := printed }

variable (d : AhciDevice) (answer : AhciCommand → ℕ → Answer)

/-- `AhciSendIdentify`: the address that is returned and what is printed. The answer of the device depends on
the command and on the round in which the last loop ends. -/
def AhciState.ahciSendIdentify (fuel : ℕ) (specificInfo : UInt64) (a : AhciState) :
    Option (AhciState × ℕ × List String) := do
  let i := specificInfo.toNat
  let s ← memsetAt P a.mmu a.sataBuffer 0 1024
  let a := a.cleared i s
  match ahciFindFreeCommandSlot (a.driver P i) d ((a.driver P i).hbaPort specificInfo) with
  | none => some (a, 0, [])
  | some slot =>
    let s ← buildCommand P (mmioAddress (a.port i).commandListAddress) slot (identifyFields a.sataBuffer) s
    if d.busy 0 &&& 1 ≠ 0 then some ({ a with mmu := s }, 0, ["An error occured"])
    else
      let _ ← poll (fun n => d.busy n &&& 0x88 = 0) fuel 1
      let round ← poll (fun n => d.issue n &&& slotBit slot = 0) fuel 0
      let command := deviceCommand P s.mem (a.port i) slot
      some (a.answered P i slot s (answer command round), a.sataBuffer, [])

/-- `AhciReadSector`: what the caller finds. -/
def AhciState.ahciReadSector (fuel : ℕ) (specificInfo : UInt64) (offset : Int64) (a : AhciState) :
    Option (AhciState × SectorRead) := do
  let i := specificInfo.toNat
  let s ← memsetAt P a.mmu a.sataBuffer 0 1024
  let a := a.cleared i s
  match ahciFindFreeCommandSlot (a.driver P i) d ((a.driver P i).hbaPort specificInfo) with
  | none => some (a, a.sector P [])
  | some slot =>
    let s ← buildCommand P (mmioAddress (a.port i).commandListAddress) slot (readFields a.sataBuffer offset) s
    let _ ← poll (fun n => d.busy n &&& 0x88 = 0) fuel 0
    let e ← commandLoop d slot fuel 0
    let command := deviceCommand P s.mem (a.port i) slot
    let a := a.answered P i slot s (answer command e.round)
    let printed := match e with
      | .failed _ => ["An error occured\n"]
      | .cleared round => if d.status round &&& 1 ≠ 0 then ["An error occured\n"] else []
    some (a, a.sector P printed)

/-! ## Assignments to a frame that was taken -/

variable {P} {count f o width slot : ℕ} {s s' : Kernel.Mmu.State} {M : PageMap} {xs : List Assignment}

/-- The assignments are to different fields of the first bytes of a structure. -/
structure Fields (width : ℕ) (xs : List Assignment) : Prop where
  within : ∀ x ∈ xs, x.offset + x.width ≤ width
  apart : xs.Pairwise fun x y => Apart x.offset x.width y.offset y.width

/-- What assignments leave: the new values, and all other fields. -/
structure Assigned (m m' : Memory) (base : ℕ) (xs : List Assignment) : Prop where
  value : ∀ x ∈ xs, m'.load (base + x.offset) x.width =
    x.value (m.load (base + x.offset) x.width) % 256 ^ x.width
  other : ∀ offset width, (∀ x ∈ xs, Apart x.offset x.width offset width) →
    m'.load (base + offset) width = m.load (base + offset) width

theorem Windowed.assignAll (h : Windowed P count s M) (hroom : s.stackPosition ≤ count) (hf : Held M f)
    (hxs : Fields width xs) (ho : o + width ≤ 4096) :
    ∃ s', assignAll P (mmioAddress f + o) xs s = some s' ∧ Drives P count 0 (FrameBytes f o width) s s' M M ∧
      s'.stackPosition = s.stackPosition ∧ Assigned s.mem s'.mem (f + P.hhdmOffset + o) xs := by
  induction xs generalizing s with
  | nil =>
    refine ⟨s, rfl, (Drives.refl h hroom).mono le_rfl (by simp), rfl, ?_⟩
    exact ⟨fun x hx => absurd hx List.not_mem_nil, fun _ _ _ => rfl⟩
  | cons x xs ih =>
    obtain ⟨hwithin, hrest⟩ := List.forall_mem_cons.mp hxs.within
    obtain ⟨hapart, hpairwise⟩ := List.pairwise_cons.mp hxs.apart
    -- the first field, and then the others, which leave it alone
    have hload := h.loadAt hf (o := o + x.offset) (l := x.width) (by omega)
    obtain ⟨s₁, hstore, hd₁, hpos₁, hmem₁⟩ := h.storeAt (o := o + x.offset) (l := x.width) hroom hf (by omega)
      (x.value (s.mem.load (f + P.hhdmOffset + (o + x.offset)) x.width))
    obtain ⟨s', hassign, hd, hpos, hassigned⟩ := ih hd₁.windowed hd₁.room ⟨hrest, hpairwise⟩
    rw [← Nat.add_assoc] at hload hstore
    rw [← Nat.add_assoc] at hload hstore hmem₁
    refine ⟨s', ?_, (hd₁.trans hd).mono le_rfl ?_, hpos.trans hpos₁, ?_, ?_⟩
    · have hfirst : assign P (mmioAddress f + o) s x = some s₁ := by
        rw [assign, hload, Option.bind_eq_bind, Option.bind_some, hstore]
      rw [Modules.assignAll, hfirst, Option.bind_eq_bind, Option.bind_some, hassign]
    · intro w hw
      rw [Set.mem_union, mem_frameBytes, mem_frameBytes] at hw
      rw [mem_frameBytes]
      exact .inl (by omega)
    · intro y hy
      rcases List.mem_cons.mp hy with rfl | hy
      · rw [hassigned.other _ _ fun z hz => (hapart z hz).symm, hmem₁, load_store_same]
      · rw [hassigned.value y hy, hmem₁, load_store_of_apart]
        have happ := hapart y hy
        unfold Apart at happ ⊢
        omega
    · intro offset width happ
      obtain ⟨hx, hxs'⟩ := List.forall_mem_cons.mp happ
      rw [hassigned.other offset width hxs', hmem₁, load_store_of_apart]
      unfold Apart at hx ⊢
      omega

theorem headerFields_fields : Fields 4 headerFields := ⟨by decide, by decide⟩

theorem identifyFields_fields (sataBuffer : ℕ) : Fields 160 (identifyFields sataBuffer) :=
  ⟨by simp [identifyFields], by simp [identifyFields, Apart]⟩

theorem readFields_fields (sataBuffer : ℕ) (start : Int64) : Fields 160 (readFields sataBuffer start) :=
  ⟨by simp [readFields], by simp [readFields, Apart]⟩

/-! ## A command in memory -/

/-- A command that was written: the fields of the header, and of the table that was cleared before. -/
structure Built (P : Platform) (m m' : Memory) (list table slot : ℕ) (fields : List Assignment) : Prop where
  header : ∀ x ∈ headerFields, m'.load (list + P.hhdmOffset + (32 * slot + x.offset)) x.width =
    x.value (m.load (list + P.hhdmOffset + (32 * slot + x.offset)) x.width) % 256 ^ x.width
  field : ∀ x ∈ fields, m'.load (table + P.hhdmOffset + x.offset) x.width = x.value 0 % 256 ^ x.width
  zero : ∀ offset width, offset + width ≤ 160 → (∀ x ∈ fields, Apart x.offset x.width offset width) →
    m'.load (table + P.hhdmOffset + offset) width = 0

/-- What is written for a command: the first bytes of the header, and the table. -/
def CommandBytes (list table slot : ℕ) : Set ℕ := FrameBytes list (32 * slot) 4 ∪ FrameBytes table 0 160

/-- **Building a command** writes the header and the table of its slot. -/
theorem buildCommand_spec {list table : ℕ} {fields : List Assignment} (h : Windowed P count s M)
    (hroom : s.stackPosition ≤ count) (hlist : Held M list) (htable : Held M table) (hne : list ≠ table)
    (hslot : slot < 32) (hnames : tableOf P s.mem list slot = table) (hfields : Fields 160 fields) :
    ∃ s', buildCommand P (mmioAddress list) slot fields s = some s' ∧
      Drives P count 0 (CommandBytes list table slot) s s' M M ∧ s'.stackPosition = s.stackPosition ∧
      Built P s.mem s'.mem list table slot fields := by
  obtain ⟨s₁, hheader, hd₁, hpos₁, hassigned₁⟩ :=
    h.assignAll hroom hlist headerFields_fields (o := 32 * slot) (by omega)
  have htable₁ : s₁.mem.load (list + P.hhdmOffset + (32 * slot + 8)) 4 = table := by
    have hother := hassigned₁.other 8 4 (by decide)
    rw [Nat.add_assoc] at hother
    exact hother.trans hnames
  have hload := hd₁.windowed.loadAt hlist (o := 32 * slot + 8) (l := 4) (by omega)
  rw [htable₁] at hload
  obtain ⟨s₂, hclear, hd₂, hpos₂, hmem₂⟩ := hd₁.windowed.memsetAt (o := 0) (l := 160) hd₁.room htable (by decide)
  obtain ⟨s', hassign, hd, hpos, hassigned⟩ :=
    hd₂.windowed.assignAll hd₂.room htable hfields (o := 0) (by decide)
  rw [Nat.add_zero] at hclear hassign hmem₂ hassigned
  -- the table is zero before the assignments
  have hzero (offset width : ℕ) (hle : offset + width ≤ 160) :
      s₂.mem.load (table + P.hhdmOffset + offset) width = 0 := by
    rw [hmem₂]
    exact load_memset_zero (by omega) (by omega)
  refine ⟨s', ?_, ((hd₁.trans hd₂).trans hd).mono le_rfl ?_, by omega, ?_, ?_, ?_⟩
  · rw [buildCommand, hheader, Option.bind_eq_bind, Option.bind_some, hload, Option.bind_eq_bind, Option.bind_some,
      hclear, Option.bind_some, hassign]
  · rintro w ((hw | hw) | hw)
    · exact .inl (.inl hw)
    · exact .inl (.inr hw)
    · exact .inl (.inr hw)
  · intro x hx
    have hvalue := hassigned₁.value x hx
    have hwithin := headerFields_fields.within x hx
    rw [Nat.add_assoc] at hvalue
    rw [← hvalue]
    refine (hd₂.trans hd).load_eq hd₁.windowed hlist (by omega) fun j hj hw => ?_
    rw [Set.union_self, Nat.add_assoc] at hw
    exact hlist.not_mem_frameBytes htable hne (by omega) (by decide) hw
  · intro x hx
    rw [hassigned.value x hx, hzero _ _ (hfields.within x hx)]
  · intro offset width hle happ
    rw [hassigned.other offset width happ, hzero _ _ hle]

/-! ## What the device reads -/

theorem load_one (m : Memory) (a : ℕ) : m.load a 1 = (m a).toNat := by
  rw [load_succ, load_zero, Nat.mul_zero, Nat.add_zero]

theorem byte_of_load {m : Memory} {a v : ℕ} (h : m.load a 1 = v % 256 ^ 1) : m a = UInt8.ofNat v := by
  rw [← UInt8.toNat_inj, ← load_one, h, UInt8.toNat_ofNat', pow_one]

theorem word32_of_load {m : Memory} {a v : ℕ} (h : m.load a 4 = v % 256 ^ 4) :
    UInt32.ofNat (m.load a 4) = UInt32.ofNat v := by
  rw [← UInt32.toNat_inj, h, UInt32.toNat_ofNat', UInt32.toNat_ofNat']
  exact Nat.mod_mod _ _

/-- The first byte of a header. -/
theorem header1_eq (x : UInt8) : UInt8.ofNat ((x.toNat ||| (20 / 4 &&& 0x1F)) &&& (0xFF - 2 ^ 6)) =
    (x ||| (20 / 4 &&& 0x1F : UInt8)) &&& ~~~((1 : UInt8) <<< 6) := by
  rw [← UInt8.toNat_inj, UInt8.toNat_ofNat', UInt8.toNat_and, UInt8.toNat_or]
  exact Nat.mod_eq_of_lt (Nat.and_lt_two_pow (n := 8) _ (by decide))

/-- **The device reads the command** of `AhciReadSectorInner` as it was meant. -/
theorem Built.deviceCommand_eq {m m' : Memory} {p : HbaPort} {table sataBuffer : ℕ} {start : Int64} {a : AhciDriver}
    (h : Built P m m' p.commandListAddress table slot (readFields sataBuffer start)) (hcla : p.claUpper = 0)
    (htable : tableOf P m' p.commandListAddress slot = table) (hupper : tableUpper P m' p.commandListAddress slot = 0)
    (hbuffer : a.sataBuffer = sataBuffer)
    (hheader : a.header1 slot = m (p.commandListAddress + P.hhdmOffset + 32 * slot)) :
    deviceCommand P m' p slot = a.readCommand slot start := by
  have hbase : p.commandListAddress + 2 ^ 32 * p.claUpper + P.hhdmOffset + 32 * slot =
      p.commandListAddress + P.hhdmOffset + 32 * slot := by
    rw [hcla, Nat.mul_zero, Nat.add_zero]
  rw [tableOf, ← Nat.add_assoc] at htable
  rw [tableUpper, ← Nat.add_assoc] at hupper
  have hfields := h.field
  simp only [readFields, List.forall_mem_cons] at hfields
  obtain ⟨h128, h140, h0, h1, h2, h4, h5, h6, h8, h9, h10, h12, h7, -⟩ := hfields
  have hheaders := h.header
  simp only [headerFields, List.forall_mem_cons] at hheaders
  obtain ⟨hfirst, hlength, -⟩ := hheaders
  have h132 := h.zero 132 4 (by decide) (by simp [readFields, Apart])
  rw [Nat.add_zero] at h0
  rw [Nat.add_zero, load_one m] at hfirst
  rw [← Nat.add_assoc] at hlength
  have hone : m' (p.commandListAddress + P.hhdmOffset + 32 * slot) =
      (a.header1 slot ||| (20 / 4 &&& 0x1F : UInt8)) &&& ~~~((1 : UInt8) <<< 6) := by
    rw [hheader, ← header1_eq]
    exact byte_of_load hfirst
  rw [deviceCommand]
  simp only [hbase, htable, hupper, Nat.mul_zero, Nat.add_zero]
  rw [hone, hlength, word32_of_load h128, h132, word32_of_load h140, byte_of_load h0, byte_of_load h1,
    byte_of_load h2, byte_of_load h4, byte_of_load h5, byte_of_load h6, byte_of_load h7, byte_of_load h8,
    byte_of_load h9, byte_of_load h10, h12, AhciDriver.readCommand, hbuffer, readFis]
  simp only [UInt8.ofNat_toNat]
  rfl

/-- Where `AhciSendIdentify` has the device put the answer: all of it at `sata_buffer`. -/
theorem Built.identify_base {m m' : Memory} {p : HbaPort} {table : ℕ}
    (h : Built P m m' p.commandListAddress table slot (identifyFields (mmioAddress f))) (hlow : f < 2 ^ 32)
    (hcla : p.claUpper = 0) (htable : tableOf P m' p.commandListAddress slot = table)
    (hupper : tableUpper P m' p.commandListAddress slot = 0) :
    (deviceCommand P m' p slot).base = f ∧ (deviceCommand P m' p slot).length = 512 := by
  have hbase : p.commandListAddress + 2 ^ 32 * p.claUpper + P.hhdmOffset + 32 * slot =
      p.commandListAddress + P.hhdmOffset + 32 * slot := by
    rw [hcla, Nat.mul_zero, Nat.add_zero]
  rw [tableOf, ← Nat.add_assoc] at htable
  rw [tableUpper, ← Nat.add_assoc] at hupper
  have hfields := h.field
  simp only [identifyFields, List.forall_mem_cons] at hfields
  obtain ⟨h128, h140, -⟩ := hfields
  have h132 := h.zero 132 4 (by decide) (by simp [identifyFields, Apart])
  have hsub := sub_mmioOffset hlow
  have haddress : (mmioAddress f + (2 ^ 64 - mmioOffset)) % 256 ^ 4 = f := by
    generalize mmioAddress f + (2 ^ 64 - mmioOffset) = v at *
    omega
  rw [haddress] at h128
  rw [deviceCommand]
  simp only [hbase, htable, hupper, Nat.mul_zero, Nat.add_zero, AhciCommand.base, AhciCommand.length, h128, h132,
    h140]
  refine ⟨?_, by decide⟩
  rw [UInt32.toNat_ofNat', Nat.mod_eq_of_lt hlow]
  rfl

/-! ## What a command does to a port -/

/-- A port stays ready while nothing is written to the addresses in its headers. -/
theorem PortReady.drives {p : HbaPort} {n : ℕ} {W : Set ℕ} {M' : PageMap} (h : PortReady P M s.mem p)
    (hw : Windowed P count s M) (hd : Drives P count n W s s' M M')
    (hW : ∀ slot < 32, ∀ o, 8 ≤ o → o < 16 → p.commandListAddress + (32 * slot + o) ∉ W) :
    PortReady P M' s'.mem p ∧ area P s'.mem p = area P s.mem p := by
  have hkeep (slot : ℕ) (hslot : slot < 32) (o : ℕ) (ho : 8 ≤ o) (ho' : o + 4 ≤ 16) :
      s'.mem.load (p.commandListAddress + P.hhdmOffset + (32 * slot + o)) 4 =
        s.mem.load (p.commandListAddress + P.hhdmOffset + (32 * slot + o)) 4 := by
    refine hd.load_eq hw (h.held .list) (by omega) fun j hj => ?_
    rw [Nat.add_assoc, Nat.add_assoc]
    exact hW slot hslot (o + j) (by omega) (by omega)
  have harea : area P s'.mem p = area P s.mem p := by
    funext x
    cases x with
    | list => rfl
    | fis => rfl
    | table slot => exact hkeep slot slot.isLt 8 le_rfl (by decide)
  refine ⟨?_, harea⟩
  exact {
    held := fun x => harea ▸ hd.keep _ (h.held x)
    injective := harea ▸ h.injective
    claUpper := h.claUpper
    fisUpper := h.fisUpper
    tableUpper := fun slot hslot => (hkeep slot hslot 12 (by decide) (by decide)).trans (h.tableUpper slot hslot) }

/-- What the device writes: the buffer, the area for answers and four bytes of the header. -/
def AnswerBytes (p : HbaPort) (f slot : ℕ) : Set ℕ :=
  FrameBytes f 0 512 ∪ FrameBytes p.fisAddress 0 256 ∪ FrameBytes p.commandListAddress (32 * slot + 4) 4

/-- The memory after an answer, where 32 bits are all of the addresses. -/
theorem deviceWrites_apply {m : Memory} {p : HbaPort} (hcla : p.claUpper = 0) (hfis : p.fisUpper = 0)
    (hbase : (deviceCommand P m p slot).base = f) (hlength : (deviceCommand P m p slot).length = 512) (x : Answer)
    (b : ℕ) : deviceWrites P m p slot x b =
      if f + P.hhdmOffset ≤ b ∧ b < f + P.hhdmOffset + min x.moved 512 then x.data (b - (f + P.hhdmOffset))
      else if p.fisAddress + P.hhdmOffset ≤ b ∧ b < p.fisAddress + P.hhdmOffset + 256 then
        x.fis (b - (p.fisAddress + P.hhdmOffset))
      else if p.commandListAddress + P.hhdmOffset + 32 * slot + 4 ≤ b ∧
          b < p.commandListAddress + P.hhdmOffset + 32 * slot + 8 then
        x.byteCount (b - (p.commandListAddress + P.hhdmOffset + 32 * slot + 4))
      else m b := by
  unfold deviceWrites
  simp only [hbase, hlength, hcla, hfis, Nat.mul_zero, Nat.add_zero]

/-- **The device answers** within the areas of its port and the buffer. -/
theorem deviceWrites_spec {p : HbaPort} (h : Windowed P count s M) (hroom : s.stackPosition ≤ count)
    (hready : PortReady P M s.mem p) (hf : Held M f) (hslot : slot < 32)
    (hbase : (deviceCommand P s.mem p slot).base = f) (hlength : (deviceCommand P s.mem p slot).length = 512)
    (x : Answer) :
    Drives P count 0 (AnswerBytes p f slot) s (s.withMem (deviceWrites P s.mem p slot x)) M M := by
  have hlist := hready.held .list
  have hfis := hready.held .fis
  refine h.writes hroom ?_ fun b hb => ?_
  · rintro w ((⟨hle, hlt⟩ | ⟨hle, hlt⟩) | ⟨hle, hlt⟩)
    · exact ⟨f, hf, by omega, by omega⟩
    · exact ⟨p.fisAddress, hfis, by omega, by omega⟩
    · exact ⟨p.commandListAddress, hlist, by omega, by omega⟩
  · rw [deviceWrites_apply hready.claUpper hready.fisUpper hbase hlength]
    have hin (w : ℕ) (hw : w ∈ AnswerBytes p f slot) (heq : b = w + P.hhdmOffset) : False := hb w hw heq
    split_ifs with hdata hanswer hcount
    · exact (hin (b - P.hhdmOffset) (.inl (.inl ⟨by omega, by omega⟩)) (by omega)).elim
    · exact (hin (b - P.hhdmOffset) (.inl (.inr ⟨by omega, by omega⟩)) (by omega)).elim
    · exact (hin (b - P.hhdmOffset) (.inr ⟨by omega, by omega⟩) (by omega)).elim
    · rfl

/-! ## The two functions -/

/-- A port that is ready, with the buffer for sectors at a frame that is none of its areas. -/
structure Usable (P : Platform) (count : ℕ) (a : AhciState) (M : PageMap) (i f : ℕ) : Prop where
  windowed : Windowed P count a.mmu M
  room : a.mmu.stackPosition ≤ count
  ready : PortReady P M a.mmu.mem (a.port i)
  buffer : a.sataBuffer = mmioAddress f
  held : Held M f
  apart : ∀ x, area P a.mmu.mem (a.port i) x ≠ f

/-- What a command may write: the buffer, the area for answers, the tables, and of each header the part in front
of the address of its table. -/
def PortWrites (P : Platform) (m : Memory) (p : HbaPort) (f : ℕ) : Set ℕ :=
  {w | w ∈ FrameBytes f 0 4096 ∨ w ∈ FrameBytes p.fisAddress 0 4096 ∨
    ∃ slot < 32, w ∈ FrameBytes p.commandListAddress (32 * slot) 8 ∨
      w ∈ FrameBytes (tableOf P m p.commandListAddress slot) 0 4096}

variable {a : AhciState} {i : ℕ}

/-- A command writes no other frame of the driver. -/
theorem PortReady.not_mem_portWrites {p : HbaPort} {m : Memory} {g : ℕ} (h : PortReady P M m p) (hf : Held M f)
    (hg : Held M g) (hne : g ≠ f) (hapart : ∀ x, area P m p x ≠ g) {o : ℕ} (ho : o < 4096) :
    g + o ∉ PortWrites P m p f := by
  rintro (hw | hw | ⟨slot, hslot, hw | hw⟩)
  · exact hg.not_mem_frameBytes hf hne ho (by decide) hw
  · exact hg.not_mem_frameBytes (h.held .fis) (hapart .fis).symm ho (by decide) hw
  · exact hg.not_mem_frameBytes (h.held .list) (hapart .list).symm ho (by omega) hw
  · exact hg.not_mem_frameBytes (h.held (.table ⟨slot, hslot⟩)) (hapart _).symm ho (by decide) hw

/-- **Clearing the buffer.** -/
theorem Usable.clear (h : Usable P count a M i f) :
    ∃ s, memsetAt P a.mmu a.sataBuffer 0 1024 = some s ∧ Usable P count (a.cleared i s) M i f ∧
      Drives P count 0 (FrameBytes f 0 1024) a.mmu s M M ∧
      s.mem = a.mmu.mem.memset (f + P.hhdmOffset) 0 1024 ∧
      area P s.mem ((a.cleared i s).port i) = area P a.mmu.mem (a.port i) := by
  obtain ⟨s, hclear, hd, -, hmem⟩ := h.windowed.memsetAt (o := 0) (l := 1024) h.room h.held (by decide)
  rw [Nat.add_zero] at hclear hmem
  obtain ⟨hready, harea⟩ := h.ready.drives h.windowed hd fun slot hslot o ho ho' =>
    (h.ready.held .list).not_mem_frameBytes h.held (h.apart .list) (by omega) (by decide)
  have hport : (a.cleared i s).port i = { a.port i with interruptStatus := 0xFFFFFFFF } := Function.update_self ..
  refine ⟨s, by rw [h.buffer, hclear], ?_, hd, hmem, by rw [hport]; exact harea⟩
  exact {
    windowed := hd.windowed
    room := hd.room
    ready := by
      rw [hport]
      exact ⟨hready.held, hready.injective, hready.claUpper, hready.fisUpper, hready.tableUpper⟩
    buffer := h.buffer
    held := h.held
    apart := fun x => by
      rw [hport]
      exact harea ▸ h.apart x }

/-- **Building a command** in the areas of a port. -/
theorem Usable.build {fields : List Assignment} (h : Usable P count a M i f) (hslot : slot < 32)
    (hfields : Fields 160 fields) :
    ∃ s, buildCommand P (mmioAddress (a.port i).commandListAddress) slot fields a.mmu = some s ∧
      Usable P count { a with mmu := s } M i f ∧
      Drives P count 0 (CommandBytes (a.port i).commandListAddress
        (tableOf P a.mmu.mem (a.port i).commandListAddress slot) slot) a.mmu s M M ∧
      Built P a.mmu.mem s.mem (a.port i).commandListAddress (tableOf P a.mmu.mem (a.port i).commandListAddress slot)
        slot fields ∧
      area P s.mem (a.port i) = area P a.mmu.mem (a.port i) := by
  have hlist := h.ready.held .list
  have htable := h.ready.held (.table ⟨slot, hslot⟩)
  have hne : area P a.mmu.mem (a.port i) .list ≠ area P a.mmu.mem (a.port i) (.table ⟨slot, hslot⟩) := fun heq =>
    absurd (h.ready.injective heq) (by simp)
  obtain ⟨s, hbuild, hd, -, hbuilt⟩ := buildCommand_spec h.windowed h.room hlist htable hne hslot rfl hfields
  obtain ⟨hready, harea⟩ := h.ready.drives h.windowed hd fun slot' hslot' o ho ho' hw => by
    rcases hw with hw | hw
    · rw [mem_frameBytes] at hw
      simp only [area] at hw
      omega
    · exact hlist.not_mem_frameBytes htable hne (by omega) (by decide) hw
  exact ⟨s, hbuild, ⟨hd.windowed, hd.room, hready, h.buffer, h.held, harea ▸ h.apart⟩, hd, hbuilt, harea⟩

/-- **The answer to a command** leaves the port as it was. -/
theorem Usable.answered {s : Kernel.Mmu.State} (h : Usable P count { a with mmu := s } M i f) (hslot : slot < 32)
    (hbase : (deviceCommand P s.mem (a.port i) slot).base = f)
    (hlength : (deviceCommand P s.mem (a.port i) slot).length = 512) (x : Answer) :
    Usable P count (a.answered P i slot s x) M i f ∧
      Drives P count 0 (AnswerBytes (a.port i) f slot) s (a.answered P i slot s x).mmu M M ∧
      area P (a.answered P i slot s x).mmu.mem ((a.answered P i slot s x).port i) = area P s.mem (a.port i) := by
  have hd := deviceWrites_spec h.windowed h.room h.ready h.held hslot hbase hlength x
  have hlist := h.ready.held .list
  obtain ⟨hready, harea⟩ := h.ready.drives h.windowed hd fun slot' hslot' o ho ho' hw => by
    rcases hw with (hw | hw) | hw
    · exact hlist.not_mem_frameBytes h.held (h.apart .list) (by omega) (by decide) hw
    · exact hlist.not_mem_frameBytes (h.ready.held .fis) (fun heq => absurd (h.ready.injective heq) (by simp))
        (by omega) (by decide) hw
    · rw [mem_frameBytes] at hw
      omega
  have hport : (a.answered P i slot s x).port i = { a.port i with commandIssue := 2 ^ slot } := Function.update_self ..
  rw [hport]
  refine ⟨?_, hd, harea⟩
  exact {
    windowed := hd.windowed
    room := hd.room
    ready := by
      rw [hport]
      exact ⟨hready.held, hready.injective, hready.claUpper, hready.fisUpper, hready.tableUpper⟩
    buffer := h.buffer
    held := h.held
    apart := fun x => by
      rw [hport]
      exact harea ▸ h.apart x }

/-- What a command leaves: the port can be used as before, and what was written is what may be written. -/
structure Kept (P : Platform) (count : ℕ) (a a' : AhciState) (M : PageMap) (i f : ℕ) : Prop where
  drives : Drives P count 0 (PortWrites P a.mmu.mem (a.port i) f) a.mmu a'.mmu M M
  usable : Usable P count a' M i f
  others : ∀ j, j ≠ i → a'.port j = a.port j
  area : area P a'.mmu.mem (a'.port i) = area P a.mmu.mem (a.port i)
  bar5 : a'.bar5 = a.bar5

end Cutesugar.Modules
