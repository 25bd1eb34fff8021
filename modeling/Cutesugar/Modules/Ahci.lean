import Cutesugar.Lib.Poll
import Mathlib.Algebra.Order.Group.Nat
import Mathlib.Algebra.Order.Group.Int
import Mathlib.Tactic.SplitIfs

/-!
# The disk (`modules/ahci/ahci.c`)

A sector is read into one global buffer, which is cleared first and whose address is what the function returns.
It returns that address too if there is no free command slot and if the device reports an error; an error is
printed and nothing else. The buffer's physical address goes to the device in 32 bits, and the number of the
sector in 48.

- `ahciReadSector`: the function, over a driver, the behaviour of the device and what the disk holds.
- `ErrorsTold`: it gives the sector that was asked for, or a value that no sector gives.
- `errors_told_iff`: for which behaviours of the device that is so.
-/

namespace Cutesugar.Modules

open Lib

/-! ## The driver and the device -/

/-- `MMIO_OFFSET`. -/
def mmioOffset : ℕ := 0xFFFFE00000000000

/-- The sectors of a disk and their bytes. -/
abbrev Disk := ℕ → ℕ → UInt8

/-- What `InitializeAhci` has left: `bar5`, the frame behind `sata_buffer`, the bytes of the buffer, and the
first byte of each command header. -/
structure AhciDriver where
  bar5 : ℕ
  frame : ℕ
  buffer : ℕ → UInt8
  header1 : ℕ → UInt8

/-- `sata_buffer`. -/
def AhciDriver.sataBuffer (a : AhciDriver) : ℕ := (mmioOffset + a.frame) % 2 ^ 64

/-- The values that are read from the registers of the port, in the order of their reads: `sata_active` and
`command_issue` for the slot, `task_file_data` before the command is issued, and from then on `command_issue`
and `task_file_data` once in each round. By a round the device has moved a number of bytes of the sector. -/
structure AhciDevice where
  sataActive : UInt32
  commandIssue : UInt32
  busy : ℕ → UInt32
  issue : ℕ → UInt32
  status : ℕ → UInt32
  moved : ℕ → ℕ

/-! ## The command slot -/

/-- The loop of `AhciFindFreeCommandSlot`, with the rounds that are left. -/
def freeSlotLoop : ℕ → ℕ → UInt32 → Option ℕ
  | 0, _, _ => none
  | rounds + 1, i, slots => if slots &&& 1 = 0 then some i else freeSlotLoop rounds (i + 1) (slots >>> 1)

/-- `AhciFindFreeCommandSlot`; `none` is -1. -/
def ahciFindFreeCommandSlot (a : AhciDriver) (d : AhciDevice) (port : ℕ) : Option ℕ :=
  if a.bar5 = 0 then none
  else if port < 0x20000 then none
  else freeSlotLoop 32 0 (d.sataActive ||| d.commandIssue)

/-! ## The command -/

/-- `FIS_Register_H2D`, without the fields that stay zero. -/
structure FisRegisterH2D where
  fisType : UInt8
  multiplierAndCc : UInt8
  command : UInt8
  lba0 : UInt8
  lba1 : UInt8
  lba2 : UInt8
  device : UInt8
  lba3 : UInt8
  lba4 : UInt8
  lba5 : UInt8
  count : UInt16

/-- What is written for a command: the header's first byte and the length of its table, the one entry of that
table, and the request. -/
structure AhciCommand where
  header1 : UInt8
  prdTableLength : UInt16
  dataBaseAddress : UInt32
  dataBaseUpper : UInt32
  byteCountAndInterruptOnCompletion : UInt32
  commandFis : FisRegisterH2D

/-- `(uint8_t)((start >> shift) & 0xFF)`. -/
def lbaByte (start : Int64) (shift : ℕ) : UInt8 := UInt8.ofNat (start.toInt / 2 ^ shift % 256).toNat

/-- The request of `AhciReadSectorInner`, in a table that has been cleared. -/
def readFis (start : Int64) : FisRegisterH2D where
  fisType := 0x27
  multiplierAndCc := (0 : UInt8) ||| (1 : UInt8) <<< 7
  command := 0x25
  lba0 := lbaByte start 0
  lba1 := lbaByte start 8
  lba2 := lbaByte start 16
  device := (1 : UInt8) <<< 6
  lba3 := lbaByte start 24
  lba4 := lbaByte start 32
  lba5 := lbaByte start 40
  count := 1

/-- The command of `AhciReadSectorInner`. -/
def AhciDriver.readCommand (a : AhciDriver) (slot : ℕ) (start : Int64) : AhciCommand where
  header1 := (a.header1 slot ||| (20 / 4 &&& 0x1F : UInt8)) &&& ~~~((1 : UInt8) <<< 6)
  prdTableLength := 1
  dataBaseAddress := UInt32.ofNat a.sataBuffer
  dataBaseUpper := 0
  byteCountAndInterruptOnCompletion := (0 ||| 511 : UInt32) &&& ~~~((1 : UInt32) <<< 31)
  commandFis := readFis start

/-- The sector that a request names. -/
def FisRegisterH2D.lba (fis : FisRegisterH2D) : ℕ :=
  fis.lba0.toNat + 2 ^ 8 * fis.lba1.toNat + 2 ^ 16 * fis.lba2.toNat + 2 ^ 24 * fis.lba3.toNat +
    2 ^ 32 * fis.lba4.toNat + 2 ^ 40 * fis.lba5.toNat

/-- Where the device puts the bytes. -/
def AhciCommand.base (c : AhciCommand) : ℕ := c.dataBaseAddress.toNat + 2 ^ 32 * c.dataBaseUpper.toNat

/-- How many bytes it puts there at most. -/
def AhciCommand.length (c : AhciCommand) : ℕ := c.byteCountAndInterruptOnCompletion.toNat % 2 ^ 22 + 1

/-- The buffer after the device has moved a number of bytes of the sector. -/
def AhciDriver.transferred (a : AhciDriver) (disk : Disk) (c : AhciCommand) (moved : ℕ) (buffer : ℕ → UInt8) :
    ℕ → UInt8 := fun i =>
  if c.base ≤ a.frame + i ∧ a.frame + i < c.base + min moved c.length then
    disk c.commandFis.lba (a.frame + i - c.base)
  else buffer i

/-! ## The read -/

/-- `memset(sata_buffer, 0, 1024)`. -/
def AhciDriver.cleared (a : AhciDriver) : ℕ → UInt8 := fun i => if i < 1024 then 0 else a.buffer i

/-- How the loop that waits for the command is left, and in which round. -/
inductive CommandEnd where
  | failed (round : ℕ)
  | cleared (round : ℕ)

/-- The round in which it is left. -/
def CommandEnd.round : CommandEnd → ℕ
  | .failed round | .cleared round => round

/-- The bit of a slot in `command_issue`. -/
def slotBit (slot : ℕ) : UInt32 := 1 <<< UInt32.ofNat slot

/-- The loop that waits for the command, with the rounds that are left. -/
def commandLoop (d : AhciDevice) (slot : ℕ) : ℕ → ℕ → Option CommandEnd
  | 0, _ => none
  | fuel + 1, round =>
    if d.issue round &&& slotBit slot = 0 then some (.cleared round)
    else if d.status round &&& 1 ≠ 0 then some (.failed round)
    else commandLoop d slot fuel (round + 1)

/-- What a caller gets: an address, the bytes from `sata_buffer` on, and what has been printed. -/
structure SectorRead where
  address : ℕ
  buffer : ℕ → UInt8
  printed : List String

/-- `AhciReadSectorInner`; `none` when the rounds of a loop are used up. -/
def ahciReadSectorInner (a : AhciDriver) (d : AhciDevice) (disk : Disk) (fuel port : ℕ) (start : Int64) :
    Option SectorRead :=
  match ahciFindFreeCommandSlot a d port with
  -- the buffer is cleared first, and returned whatever happens
  | none => some { address := a.sataBuffer, buffer := a.cleared, printed := [] }
  | some slot =>
    let command := a.readCommand slot start
    -- until the device is not busy
    match poll (fun n => d.busy n &&& 0x88 = 0) fuel 0 with
    | none => none
    | some _ =>
      match commandLoop d slot fuel 0 with
      | none => none
      | some (.failed round) =>
        some
          { address := a.sataBuffer
            buffer := a.transferred disk command (d.moved round) a.cleared
            printed := ["An error occured\n"] }
      | some (.cleared round) =>
        some
          { address := a.sataBuffer
            buffer := a.transferred disk command (d.moved round) a.cleared
            printed := if d.status round &&& 1 ≠ 0 then ["An error occured\n"] else [] }

/-- The address of an entry of `hba_port`. -/
def AhciDriver.hbaPort (a : AhciDriver) (specificInfo : UInt64) : ℕ :=
  (a.bar5 + 0x100 + 0x80 * specificInfo.toNat) % 2 ^ 64

/-- `AhciReadSector`, with the `specific_info` of the device. -/
def ahciReadSector (a : AhciDriver) (d : AhciDevice) (disk : Disk) (fuel : ℕ) (specificInfo : UInt64)
    (offset : Int64) : Option SectorRead :=
  ahciReadSectorInner a d disk fuel (a.hbaPort specificInfo) offset

/-! ## Errors and data -/

/-- The buffer holds the sector that was asked for. -/
structure HoldsSector (disk : Disk) (offset : Int64) (r : SectorRead) : Prop where
  nonneg : 0 ≤ offset.toInt
  bytes : ∀ i < 512, r.buffer i = disk offset.toInt.toNat i

/-- The address, and what a caller copies from it, are not those of any sector. -/
def TellsError (a : AhciDriver) (r : SectorRead) : Prop :=
  ∀ sector : ℕ → UInt8, ¬ (r.address = a.sataBuffer ∧ ∀ i < 512, r.buffer i = sector i)

/-- **Errors are told**: whatever the disk holds, the function returns the sector that was asked for or a value
that no sector gives. -/
def ErrorsTold (a : AhciDriver) (d : AhciDevice) (specificInfo : UInt64) (offset : Int64) : Prop :=
  ∀ disk, ∃ fuel r, ahciReadSector a d disk fuel specificInfo offset = some r ∧
    (HoldsSector disk offset r ∨ TellsError a r)

/-- A slot is taken. -/
def AhciDevice.Taken (d : AhciDevice) (slot : ℕ) : Prop :=
  (d.sataActive ||| d.commandIssue).toNat.testBit slot = true

/-- The port can be used and has a free slot, and this is the first one. -/
structure FreeSlot (a : AhciDriver) (d : AhciDevice) (specificInfo : UInt64) (slot : ℕ) : Prop where
  bar5 : a.bar5 ≠ 0
  port : 0x20000 ≤ a.hbaPort specificInfo
  lt : slot < 32
  first : FirstFrom (fun i => ¬ d.Taken i) 0 slot

/-- A round in which the polls end: the bit of the slot is clear, or there is an error. -/
def AhciDevice.Stops (d : AhciDevice) (slot round : ℕ) : Prop :=
  d.issue round &&& slotBit slot = 0 ∨ d.status round &&& 1 ≠ 0

instance (d : AhciDevice) (slot : ℕ) : DecidablePred (d.Stops slot) := fun _ =>
  inferInstanceAs (Decidable (_ ∨ _))

/-- The polls end. -/
structure PollsEnd (d : AhciDevice) (slot : ℕ) : Prop where
  busy : ∃ n, d.busy n &&& 0x88 = 0
  command : ∃ round, d.Stops slot round

/-- The sector gets into the buffer: there is a free slot, the frame can be addressed with 32 bits and the
sector with 48, and when the polls end the device has moved all bytes. -/
structure SectorMoved (a : AhciDriver) (d : AhciDevice) (specificInfo : UInt64) (offset : Int64) : Prop where
  moved : ∃ slot, FreeSlot a d specificInfo slot ∧ ∃ round, FirstFrom (d.Stops slot) 0 round ∧ 512 ≤ d.moved round
  frame : a.frame < 2 ^ 32
  nonneg : 0 ≤ offset.toInt
  offset : offset.toInt < 2 ^ 48

variable {a : AhciDriver} {d : AhciDevice} {disk : Disk} {specificInfo : UInt64} {offset : Int64}
  {slot round rounds fuel port i : ℕ} {r : SectorRead}

/-! ## The slot that is found -/

/-- The loop asks for the bits of a word from some bit on. -/
theorem freeSlotLoop_eq_poll {slots w : UInt32} (h : slots.toNat = w.toNat >>> i) :
    freeSlotLoop rounds i slots = poll (fun i => ¬ w.toNat.testBit i = true) rounds i := by
  induction rounds generalizing i slots with
  | zero => rfl
  | succ rounds ih =>
    have hbit : slots &&& 1 = 0 ↔ ¬ w.toNat.testBit i = true := by
      rw [← UInt32.toNat_inj, UInt32.toNat_and, h]
      simp [Nat.testBit, Nat.and_one_is_mod, Nat.one_and_eq_mod_two]
    have hnext : (slots >>> 1).toNat = w.toNat >>> (i + 1) := by
      rw [UInt32.toNat_shiftRight, h, Nat.shiftRight_add]
      rfl
    rw [freeSlotLoop, poll, ih hnext]
    exact if_congr hbit rfl rfl

/-- The slot that is found is the first free one. -/
theorem ahciFindFreeCommandSlot_eq_some_iff :
    ahciFindFreeCommandSlot a d (a.hbaPort specificInfo) = some slot ↔ FreeSlot a d specificInfo slot := by
  have hloop : freeSlotLoop 32 0 (d.sataActive ||| d.commandIssue) = some slot ↔
      FirstFrom (fun i => ¬ d.Taken i) 0 slot ∧ slot < 32 := by
    rw [freeSlotLoop_eq_poll (w := d.sataActive ||| d.commandIssue) rfl, poll_eq_some_iff, Nat.zero_add]
    rfl
  unfold ahciFindFreeCommandSlot
  constructor
  · intro h
    split_ifs at h with hbar5 hport
    obtain ⟨hfirst, hlt⟩ := hloop.mp h
    exact { bar5 := hbar5, port := Nat.not_lt.mp hport, lt := hlt, first := hfirst }
  · intro h
    rw [if_neg h.bar5, if_neg (Nat.not_lt.mpr h.port)]
    exact hloop.mpr ⟨h.first, h.lt⟩

/-! ## The request -/

theorem readCommand_base : (a.readCommand slot offset).base = a.frame % 2 ^ 32 := by
  -- the offset is a variable here, lest it be unfolded
  have hmod : ∀ m, m % 2 ^ 32 = 0 → (m + a.frame) % 2 ^ 64 % 2 ^ 32 = a.frame % 2 ^ 32 := by
    intro m hm
    omega
  have hbase : (a.readCommand slot offset).base = a.sataBuffer % 2 ^ 32 := by
    simp only [AhciCommand.base, AhciDriver.readCommand, UInt32.toNat_ofNat', UInt32.toNat_zero, Nat.mul_zero,
      Nat.add_zero]
  rw [hbase, AhciDriver.sataBuffer]
  exact hmod mmioOffset rfl

theorem readCommand_length : (a.readCommand slot offset).length = 512 := rfl

theorem toNat_lbaByte (offset : Int64) (shift : ℕ) : ((lbaByte offset shift).toNat : ℤ) = offset.toInt / 2 ^ shift % 256 := by
  rw [lbaByte, UInt8.toNat_ofNat']
  omega

/-- The request names the sector modulo the 48 bits of its number. -/
theorem lba_readFis : ((readFis offset).lba : ℤ) = offset.toInt % 2 ^ 48 := by
  have h0 := toNat_lbaByte offset 0
  have h1 := toNat_lbaByte offset 8
  have h2 := toNat_lbaByte offset 16
  have h3 := toNat_lbaByte offset 24
  have h4 := toNat_lbaByte offset 32
  have h5 := toNat_lbaByte offset 40
  simp only [FisRegisterH2D.lba, readFis]
  omega

/-- A byte of the buffer that is not zero comes from the disk. -/
theorem transferred_of_ne_zero {c : AhciCommand} {moved : ℕ} {buffer : ℕ → UInt8} (hzero : buffer i = 0)
    (h : a.transferred disk c moved buffer i ≠ 0) :
    c.base ≤ a.frame + i ∧ a.frame + i < c.base + min moved c.length ∧
      a.transferred disk c moved buffer i = disk c.commandFis.lba (a.frame + i - c.base) := by
  unfold AhciDriver.transferred at h ⊢
  split_ifs at h ⊢ with hin
  · exact ⟨hin.1, hin.2, rfl⟩
  · exact absurd hzero h

/-! ## The polls -/

/-- The loop for the command ends where the polls end. -/
theorem map_round_commandLoop (d : AhciDevice) (slot fuel round : ℕ) :
    (commandLoop d slot fuel round).map CommandEnd.round = poll (d.Stops slot) fuel round := by
  induction fuel generalizing round with
  | zero => rfl
  | succ fuel ih =>
    have hstop : d.Stops slot round ↔ d.issue round &&& slotBit slot = 0 ∨ d.status round &&& 1 ≠ 0 := Iff.rfl
    rw [commandLoop, poll]
    by_cases hclear : d.issue round &&& slotBit slot = 0
    · rw [if_pos hclear, if_pos (hstop.mpr (Or.inl hclear))]
      rfl
    · by_cases herror : d.status round &&& 1 ≠ 0
      · rw [if_neg hclear, if_pos herror, if_pos (hstop.mpr (Or.inr herror))]
        rfl
      · rw [if_neg hclear, if_neg herror, if_neg (fun h => not_or.mpr ⟨hclear, herror⟩ (hstop.mp h)), ih]

/-! ## What is returned -/

theorem cleared_eq_zero (hi : i < 512) : a.cleared i = 0 := if_pos (by omega)

/-- Each exit returns the address of the buffer. -/
theorem address_ahciReadSector (h : ahciReadSector a d disk fuel specificInfo offset = some r) :
    r.address = a.sataBuffer := by
  unfold ahciReadSector ahciReadSectorInner at h
  split at h
  · cases h
    rfl
  · split at h
    · cases h
    · split at h <;> cases h <;> rfl

/-- An error is never told. -/
theorem not_tellsError (h : ahciReadSector a d disk fuel specificInfo offset = some r) : ¬ TellsError a r := by
  intro htell
  exact htell r.buffer ⟨address_ahciReadSector h, fun i _ => rfl⟩

/-- Without a free slot the cleared buffer is returned. -/
theorem ahciReadSector_none (h : ahciFindFreeCommandSlot a d (a.hbaPort specificInfo) = none) :
    ahciReadSector a d disk fuel specificInfo offset =
      some { address := a.sataBuffer, buffer := a.cleared, printed := [] } := by
  simp only [ahciReadSector, ahciReadSectorInner, h]

/-- With a free slot, what is returned is what has been moved when the polls end. -/
theorem buffer_ahciReadSector (hslot : FreeSlot a d specificInfo slot)
    (h : ahciReadSector a d disk fuel specificInfo offset = some r) :
    ∃ round, FirstFrom (d.Stops slot) 0 round ∧
      r.buffer = a.transferred disk (a.readCommand slot offset) (d.moved round) a.cleared := by
  have hfind := ahciFindFreeCommandSlot_eq_some_iff.mpr hslot
  simp only [ahciReadSector, ahciReadSectorInner, hfind] at h
  have hround : ∀ e, commandLoop d slot fuel 0 = some e → FirstFrom (d.Stops slot) 0 e.round := by
    intro e he
    have hmap := map_round_commandLoop d slot fuel 0
    rw [he, Option.map_some] at hmap
    exact (poll_eq_some_iff.mp hmap.symm).1
  split at h
  · cases h
  · split at h
    · cases h
    -- the error and the cleared bit leave the same buffer behind
    · next round he =>
      cases h
      exact ⟨round, hround _ he, rfl⟩
    · next round he =>
      cases h
      exact ⟨round, hround _ he, rfl⟩

/-- If the polls end, the function returns. -/
theorem exists_ahciReadSector (disk : Disk) (offset : Int64)
    (hends : ∀ slot, FreeSlot a d specificInfo slot → PollsEnd d slot) :
    ∃ fuel r, ahciReadSector a d disk fuel specificInfo offset = some r := by
  cases hfind : ahciFindFreeCommandSlot a d (a.hbaPort specificInfo) with
  | none => exact ⟨0, _, ahciReadSector_none hfind⟩
  | some slot =>
    have hend := hends slot (ahciFindFreeCommandSlot_eq_some_iff.mp hfind)
    obtain ⟨n, hbusy⟩ := exists_firstFrom hend.busy
    obtain ⟨round, hstop⟩ := exists_firstFrom hend.command
    -- as many rounds as the longer of the two loops needs
    have hn := hbusy.poll_eq (Nat.lt_succ_of_le (Nat.le_add_right n round))
    have hround := hstop.poll_eq (Nat.lt_succ_of_le (Nat.le_add_left round n))
    rw [← map_round_commandLoop, Option.map_eq_some_iff] at hround
    obtain ⟨e, he, -⟩ := hround
    refine ⟨n + round + 1, ?_⟩
    simp only [ahciReadSector, ahciReadSectorInner, hfind, hn, he]
    cases e with
    | failed round => exact ⟨_, rfl⟩
    | cleared round => exact ⟨_, rfl⟩

/-! ## When errors are told -/

/-- If the sector is moved into the buffer, it is what is returned. -/
theorem SectorMoved.holdsSector (h : SectorMoved a d specificInfo offset)
    (hread : ahciReadSector a d disk fuel specificInfo offset = some r) : HoldsSector disk offset r := by
  obtain ⟨slot, hslot, round, hstop, hmoved⟩ := h.moved
  obtain ⟨round', hstop', hbuffer⟩ := buffer_ahciReadSector hslot hread
  obtain rfl := hstop.unique hstop'
  refine { nonneg := h.nonneg, bytes := ?_ }
  intro i hi
  have hbase : (a.readCommand slot offset).base = a.frame := by
    rw [readCommand_base, Nat.mod_eq_of_lt h.frame]
  have hlba : (a.readCommand slot offset).commandFis.lba = offset.toInt.toNat := by
    have hmod : ((a.readCommand slot offset).commandFis.lba : ℤ) = offset.toInt % 2 ^ 48 := lba_readFis
    rw [Int.emod_eq_of_lt h.nonneg h.offset] at hmod
    rw [← hmod, Int.toNat_natCast]
  have hin : a.frame ≤ a.frame + i ∧ a.frame + i < a.frame + min (d.moved round) 512 := by omega
  rw [hbuffer, AhciDriver.transferred, hbase, readCommand_length, if_pos hin, hlba, Nat.add_sub_cancel_left]

/-- A disk that has the byte 1 in one sector and 2 in all others. -/
def markedDisk (marked : ℕ) : Disk := fun lba _ => if lba = marked then 1 else 2

/-- If the last byte of the marked sector is read, the whole sector has been moved. -/
theorem sectorMoved_of_holds
    (hread : ahciReadSector a d (markedDisk offset.toInt.toNat) fuel specificInfo offset = some r)
    (h : HoldsSector (markedDisk offset.toInt.toNat) offset r) : SectorMoved a d specificInfo offset := by
  have hlast : r.buffer 511 = 1 := by
    rw [h.bytes 511 (by decide)]
    exact if_pos rfl
  cases hfind : ahciFindFreeCommandSlot a d (a.hbaPort specificInfo) with
  | none =>
    -- the byte would be one of the cleared buffer
    rw [ahciReadSector_none hfind] at hread
    cases hread
    have hzero : a.cleared 511 = 0 := cleared_eq_zero (by decide)
    exact absurd (hzero.symm.trans hlast) (by decide)
  | some slot =>
    have hslot := ahciFindFreeCommandSlot_eq_some_iff.mp hfind
    obtain ⟨round, hstop, hbuffer⟩ := buffer_ahciReadSector hslot hread
    rw [hbuffer] at hlast
    obtain ⟨hle, hlt, hbyte⟩ := transferred_of_ne_zero (cleared_eq_zero (i := 511) (by decide))
      (by rw [hlast]; decide)
    rw [readCommand_base, readCommand_length] at hlt
    have hframe := Nat.mod_le a.frame (2 ^ 32)
    rw [hlast, markedDisk] at hbyte
    have hlba : (a.readCommand slot offset).commandFis.lba = offset.toInt.toNat := by
      by_contra hne
      rw [if_neg hne] at hbyte
      exact absurd hbyte (by decide)
    have hmod : ((a.readCommand slot offset).commandFis.lba : ℤ) = offset.toInt % 2 ^ 48 := lba_readFis
    rw [hlba, Int.toNat_of_nonneg h.nonneg] at hmod
    exact
      { moved := ⟨slot, hslot, round, hstop, by omega⟩
        frame := by omega
        nonneg := h.nonneg
        offset := by omega }

/-- **Disk errors and data**: for a behaviour that ends the polls, errors are told exactly if there is none,
which is to say that the sector is moved into the buffer. -/
theorem errors_told_iff (a : AhciDriver) (d : AhciDevice) (specificInfo : UInt64) (offset : Int64)
    (hends : ∀ slot, FreeSlot a d specificInfo slot → PollsEnd d slot) :
    ErrorsTold a d specificInfo offset ↔ SectorMoved a d specificInfo offset := by
  constructor
  · intro h
    obtain ⟨fuel, r, hread, hholds | htells⟩ := h (markedDisk offset.toInt.toNat)
    · exact sectorMoved_of_holds hread hholds
    · exact absurd htells (not_tellsError hread)
  · intro h disk
    obtain ⟨fuel, r, hread⟩ := exists_ahciReadSector disk offset hends
    exact ⟨fuel, r, hread, Or.inl (h.holdsSector hread)⟩

/-- A driver with its registers and its buffer below 4 GiB. -/
def lowDriver : AhciDriver where
  bar5 := 0xFEBF1000
  frame := 0x100000
  buffer _ := 0
  header1 _ := 0

/-- A device that is idle, and has moved a sector by the time it clears the bit of its slot. -/
def promptDevice : AhciDevice where
  sataActive := 0
  commandIssue := 0
  busy _ := 0x50
  issue _ := 0
  status _ := 0x50
  moved _ := 512

/-- A read of it gives the sector. -/
theorem prompt_device_read : ErrorsTold lowDriver promptDevice 0 0 := by
  have hclear : ∀ slot, promptDevice.Stops slot 0 := fun slot => Or.inl UInt32.zero_and
  refine (errors_told_iff lowDriver promptDevice 0 0 ?_).mpr ?_
  · intro slot _
    exact { busy := ⟨0, by decide⟩, command := ⟨0, hclear slot⟩ }
  · have hslot : FreeSlot lowDriver promptDevice 0 0 :=
      { bar5 := by decide
        port := by decide
        lt := by decide
        first := .self (by decide : ¬ (0 : ℕ).testBit 0 = true) }
    exact
      { moved := ⟨0, hslot, 0, .self (hclear 0), Nat.le_refl 512⟩
        frame := by decide
        nonneg := by decide
        offset := by decide }

/-- A device that reports an error in the first round. -/
def failingDevice : AhciDevice where
  sataActive := 0
  commandIssue := 0
  busy _ := 0x50
  issue _ := 0xFFFFFFFF
  status _ := 0x51
  moved _ := 0

/-- Its error is not told: what is returned is a sector of zeros. -/
theorem failing_device_read : ¬ ErrorsTold lowDriver failingDevice 0 0 := by
  intro h
  obtain ⟨fuel, r, hread, hholds | htells⟩ := h (markedDisk (0 : Int64).toInt.toNat)
  · obtain ⟨slot, -, round, -, hmoved⟩ := (sectorMoved_of_holds hread hholds).moved
    exact absurd hmoved (by decide : ¬ 512 ≤ 0)
  · exact not_tellsError hread htells

end Cutesugar.Modules
