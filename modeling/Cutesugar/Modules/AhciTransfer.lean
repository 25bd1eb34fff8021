import Cutesugar.Modules.AhciCommand

/-!
# One command of the disk driver (`modules/ahci/ahci.c`)

A command writes the areas of its port and the buffer for sectors, and leaves the port as it found it. The
model of `Cutesugar.Modules.Ahci` knows no page tables and no addresses: it says at once what a caller finds.

- `ahciSendIdentify_kept`, `ahciReadSector_kept`: what the two functions write, whatever the device sends.
- `ahciReadSector_refines`: a read through mapped memory, which the device finds by physical addresses, is the
  read without memory.
-/

namespace Cutesugar.Modules

open Kernel.Mmu Lib Lib.Memory

variable {P : Platform} {count f fuel slot i : ℕ} {M : PageMap} {a : AhciState} {d : AhciDevice}
  {answer : AhciCommand → ℕ → Answer} {specificInfo : UInt64} {offset : Int64} {disk : Disk}

/-! ## One command -/

/-- The fields of a table give one region of the buffer, as the device reads them. -/
def Transfers (P : Platform) (f slot : ℕ) (fields : List Assignment) : Prop :=
  ∀ m m' p table, Built P m m' p.commandListAddress table slot fields → p.claUpper = 0 →
    tableOf P m' p.commandListAddress slot = table → tableUpper P m' p.commandListAddress slot = 0 →
    (deviceCommand P m' p slot).base = f ∧ (deviceCommand P m' p slot).length = 512

theorem transfers_identify (hlow : f < 2 ^ 32) : Transfers P f slot (identifyFields (mmioAddress f)) :=
  fun _ _ _ _ hbuilt hcla htable hupper => hbuilt.identify_base hlow hcla htable hupper

theorem buffer_driver (k : ℕ) :
    (a.driver P i).buffer k = a.mmu.mem ((a.driver P i).frame + P.hhdmOffset + k) := rfl

theorem cleared_driver (hframe : (a.driver P i).frame = f) (k : ℕ) :
    (a.driver P i).cleared k = if k < 1024 then 0 else a.mmu.mem (f + P.hhdmOffset + k) := by
  rw [← hframe, ← buffer_driver]
  rfl

theorem sataBuffer_driver (h : Usable P count a M i f) :
    (a.driver P i).frame = f ∧ (a.driver P i).sataBuffer = a.sataBuffer := by
  have hframe : (a.driver P i).frame = f := by
    change (a.sataBuffer + (2 ^ 64 - mmioOffset)) % 2 ^ 64 = f
    rw [h.buffer, sub_mmioOffset h.held.low]
  refine ⟨hframe, ?_⟩
  rw [AhciDriver.sataBuffer, hframe, h.buffer, mmioAddress, Nat.add_comm]

theorem transfers_read (hlow : f < 2 ^ 32) : Transfers P f slot (readFields (mmioAddress f) offset) := by
  intro m m' p table hbuilt hcla htable hupper
  have hcommand := hbuilt.deviceCommand_eq
    (a := ⟨0, f, fun _ => 0, fun slot => m (p.commandListAddress + P.hhdmOffset + 32 * slot)⟩) hcla htable hupper
    (by rw [AhciDriver.sataBuffer, mmioAddress, Nat.add_comm]) rfl
  rw [hcommand, readCommand_base, readCommand_length]
  exact ⟨Nat.mod_eq_of_lt hlow, rfl⟩

/-- What is written for a command and by its answer is what may be written. -/
theorem mem_portWrites {m : Memory} {p : HbaPort} (hslot : slot < 32) {w : ℕ}
    (hw : w ∈ FrameBytes f 0 1024 ∨ w ∈ CommandBytes p.commandListAddress (tableOf P m p.commandListAddress slot) slot ∨
      w ∈ AnswerBytes p f slot) : w ∈ PortWrites P m p f := by
  rcases hw with hw | (hw | hw) | (hw | hw) | hw
  · exact .inl ⟨hw.1, by have := hw.2; omega⟩
  · exact .inr (.inr ⟨slot, hslot, .inl ⟨hw.1, by have := hw.2; omega⟩⟩)
  · exact .inr (.inr ⟨slot, hslot, .inr ⟨hw.1, by have := hw.2; omega⟩⟩)
  · exact .inl ⟨hw.1, by have := hw.2; omega⟩
  · exact .inr (.inl ⟨hw.1, by have := hw.2; omega⟩)
  · exact .inr (.inr ⟨slot, hslot, .inl ⟨by have := hw.1; omega, by have := hw.2; omega⟩⟩)

/-- A command up to where the device takes it, in state `s'`; in state `s` the buffer has been cleared. -/
structure Prepared (P : Platform) (count : ℕ) (a : AhciState) (M : PageMap) (i f slot : ℕ)
    (fields : List Assignment) (s s' : Kernel.Mmu.State) : Prop where
  clear : memsetAt P a.mmu a.sataBuffer 0 1024 = some s
  build : buildCommand P (mmioAddress ((a.cleared i s).port i).commandListAddress) slot fields s = some s'
  unanswered : Kept P count a { a.cleared i s with mmu := s' } M i f
  answered : ∀ x, Kept P count a ((a.cleared i s).answered P i slot s' x) M i f
  built : Built P s.mem s'.mem ((a.cleared i s).port i).commandListAddress
    (tableOf P s'.mem ((a.cleared i s).port i).commandListAddress slot) slot fields
  header : s.mem (((a.cleared i s).port i).commandListAddress + P.hhdmOffset + 32 * slot) =
    a.mmu.mem ((a.port i).commandListAddress + P.hhdmOffset + 32 * slot)
  buffer : ∀ k < 4096, s'.mem (f + P.hhdmOffset + k) = if k < 1024 then 0 else a.mmu.mem (f + P.hhdmOffset + k)

theorem port_cleared (s : Kernel.Mmu.State) :
    (a.cleared i s).port i = { a.port i with interruptStatus := 0xFFFFFFFF } := Function.update_self ..

/-- **Preparing a command** of a port that can be used. -/
theorem Usable.prepare {fields : List Assignment} (h : Usable P count a M i f) (hslot : slot < 32)
    (hfields : Fields 160 fields) (htransfers : Transfers P f slot fields) :
    ∃ s s', Prepared P count a M i f slot fields s s' := by
  obtain ⟨s, hclear, h₁, hd₁, hmem, harea₁⟩ := h.clear
  obtain ⟨s', hbuild, h₂, hd₂, hbuilt, harea₂⟩ := h₁.build hslot hfields
  have hlist := h.ready.held .list
  have htable : tableOf P s'.mem ((a.cleared i s).port i).commandListAddress slot =
      tableOf P s.mem ((a.cleared i s).port i).commandListAddress slot := congrFun harea₂ (.table ⟨slot, hslot⟩)
  have htable₁ : tableOf P s.mem ((a.cleared i s).port i).commandListAddress slot =
      tableOf P a.mmu.mem (a.port i).commandListAddress slot := congrFun harea₁ (.table ⟨slot, hslot⟩)
  obtain ⟨hbase, hlength⟩ := htransfers _ _ _ _ hbuilt h₂.ready.claUpper htable (h₂.ready.tableUpper slot hslot)
  have hreplies (x : Answer) := h₂.answered hslot hbase hlength x
  -- the addresses that are written, in terms of the port
  have hcommand (w : ℕ) (hw : w ∈ CommandBytes ((a.cleared i s).port i).commandListAddress
      (tableOf P s.mem ((a.cleared i s).port i).commandListAddress slot) slot) :
      w ∈ PortWrites P a.mmu.mem (a.port i) f := by
    rw [htable₁, port_cleared] at hw
    exact mem_portWrites hslot (.inr (.inl hw))
  have hanswer (w : ℕ) (hw : w ∈ AnswerBytes ((a.cleared i s).port i) f slot) :
      w ∈ PortWrites P a.mmu.mem (a.port i) f := by
    rw [port_cleared] at hw
    exact mem_portWrites hslot (.inr (.inr hw))
  have hd := hd₁.trans hd₂
  refine ⟨s, s', hclear, hbuild, ?_, fun x => ?_, htable ▸ hbuilt, ?_, fun k hk => ?_⟩
  · exact {
      drives := hd.mono le_rfl fun w hw => .inl (hw.elim (fun hw => mem_portWrites hslot (.inl hw)) (hcommand w))
      usable := h₂
      others := fun j hj => Function.update_of_ne hj ..
      area := harea₂.trans harea₁
      bar5 := rfl }
  · obtain ⟨h₃, hd₃, harea₃⟩ := hreplies x
    exact {
      drives := (hd.trans hd₃).mono le_rfl fun w hw => .inl <| by
        rcases hw with (hw | hw) | hw
        · exact mem_portWrites hslot (.inl hw)
        · exact hcommand w hw
        · exact hanswer w hw
      usable := h₃
      others := fun j hj => by
        change Function.update (Function.update a.port i _) i _ j = a.port j
        rw [Function.update_of_ne hj, Function.update_of_ne hj]
      area := harea₃.trans (harea₂.trans harea₁)
      bar5 := rfl }
  · rw [port_cleared]
    have hbyte := hd₁.byte_eq h.windowed hlist (o := 32 * slot) (by omega)
      (hlist.not_mem_frameBytes h.held (h.apart .list) (by omega) (by decide))
    exact hbyte
  · -- neither the list nor the table is the buffer
    have hout : f + k ∉ CommandBytes ((a.cleared i s).port i).commandListAddress
        (tableOf P s.mem ((a.cleared i s).port i).commandListAddress slot) slot := by
      rintro (hw | hw)
      · exact h.held.not_mem_frameBytes (h₁.ready.held .list) (h₁.apart .list).symm hk (by omega) hw
      · exact h.held.not_mem_frameBytes (h₁.ready.held (.table ⟨slot, hslot⟩)) (h₁.apart _).symm hk (by decide) hw
    rw [hd₂.byte_eq h₁.windowed h.held hk hout]
    change s.mem _ = _
    rw [hmem, memset]
    exact if_congr (by omega) rfl rfl

/-- A port that can be used, after the buffer was cleared. -/
theorem Usable.cleared_kept (h : Usable P count a M i f) :
    ∃ s, memsetAt P a.mmu a.sataBuffer 0 1024 = some s ∧ Kept P count a (a.cleared i s) M i f ∧
      ∀ k < 4096, s.mem (f + P.hhdmOffset + k) = if k < 1024 then 0 else a.mmu.mem (f + P.hhdmOffset + k) := by
  obtain ⟨s, hclear, h₁, hd₁, hmem, harea₁⟩ := h.clear
  refine ⟨s, hclear, ?_, fun k _ => ?_⟩
  · exact {
      drives := hd₁.mono le_rfl fun w hw => .inl (mem_portWrites (by decide : 0 < 32) (.inl hw))
      usable := h₁
      others := fun j hj => Function.update_of_ne hj ..
      area := harea₁
      bar5 := rfl }
  · rw [hmem, memset]
    exact if_congr (by omega) rfl rfl

/-- **`AhciSendIdentify`** writes what it may and leaves the port as it was. -/
theorem ahciSendIdentify_kept (h : Usable P count a M i f) (hi : specificInfo.toNat = i)
    {x : AhciState × ℕ × List String} (hx : a.ahciSendIdentify P d answer fuel specificInfo = some x) :
    Kept P count a x.1 M i f := by
  subst hi
  obtain ⟨s, hclear, hkept, -⟩ := h.cleared_kept
  rw [AhciState.ahciSendIdentify, hclear, Option.bind_eq_bind, Option.bind_some] at hx
  dsimp only at hx
  cases hfind : ahciFindFreeCommandSlot ((a.cleared specificInfo.toNat s).driver P specificInfo.toNat) d
      (((a.cleared specificInfo.toNat s).driver P specificInfo.toNat).hbaPort specificInfo) with
  | none =>
    rw [hfind] at hx
    cases hx
    exact hkept
  | some slot =>
    rw [hfind] at hx
    have hslot := (ahciFindFreeCommandSlot_eq_some_iff.mp hfind).lt
    obtain ⟨s₁, s', hprepared⟩ := h.prepare hslot (identifyFields_fields _) (transfers_identify h.held.low)
    obtain rfl := Option.some.inj (hclear.symm.trans hprepared.clear)
    have hbuild := hprepared.build
    rw [← h.buffer] at hbuild
    change (buildCommand P _ slot (identifyFields a.sataBuffer) s >>= _) = _ at hx
    rw [hbuild, Option.bind_eq_bind, Option.bind_some] at hx
    split_ifs at hx
    · cases hx
      exact hprepared.unanswered
    · obtain ⟨-, -, hx⟩ := Option.bind_eq_some_iff.mp hx
      obtain ⟨round, -, hx⟩ := Option.bind_eq_some_iff.mp hx
      cases hx
      exact hprepared.answered _

/-! ## Reading a sector -/

/-- What a caller finds is the same, as far as the page of the buffer reaches. -/
structure SameSector (r r' : SectorRead) : Prop where
  address : r'.address = r.address
  printed : r'.printed = r.printed
  buffer : ∀ k < 4096, r'.buffer k = r.buffer k

/-- The buffer shows the frame behind it. -/
theorem buffer_sector (h : Usable P count a M i f) (printed : List String) {k : ℕ} (hk : k < 4096) :
    (a.sector P printed).buffer k = a.mmu.mem (f + P.hhdmOffset + k) := by
  have hphysical := h.windowed.owned.physical_eq (windowPage_mem h.held.low) h.held.bound hk
  rw [AhciState.sector, h.buffer, mmioAddress_eq h.held.low h.held.aligned]
  dsimp only
  rw [byteAt, hphysical]
  rfl

/-- The device sends the sector that it is asked for, as many bytes of it as it has moved in a round. -/
def Sends (disk : Disk) (d : AhciDevice) (answer : AhciCommand → ℕ → Answer) : Prop :=
  ∀ c round, (answer c round).data = disk c.commandFis.lba ∧ (answer c round).moved = d.moved round

theorem answered_mem (s : Kernel.Mmu.State) (x : Answer) :
    (a.answered P i slot s x).mmu.mem = deviceWrites P s.mem (a.port i) slot x := rfl

/-- The memory of the buffer after the device has answered. -/
theorem mem_answered {s s' : Kernel.Mmu.State} (h : Usable P count a M i f) (hsends : Sends disk d answer)
    (hslot : slot < 32) (hprepared : Prepared P count a M i f slot (readFields (mmioAddress f) offset) s s')
    {k : ℕ} (hk : k < 4096) (round : ℕ) :
    deviceWrites P s'.mem ((a.cleared i s).port i) slot
        (answer (deviceCommand P s'.mem ((a.cleared i s).port i) slot) round) (f + P.hhdmOffset + k) =
      (a.driver P i).transferred disk ((a.driver P i).readCommand slot offset) (d.moved round)
        (a.driver P i).cleared k := by
  obtain ⟨hframe, hbuffer⟩ := sataBuffer_driver h
  have husable := hprepared.unanswered.usable
  have hready : PortReady P M s'.mem ((a.cleared i s).port i) := husable.ready
  have hcommand : deviceCommand P s'.mem ((a.cleared i s).port i) slot = (a.driver P i).readCommand slot offset :=
    hprepared.built.deviceCommand_eq hready.claUpper rfl (hready.tableUpper slot hslot)
      (hbuffer.trans h.buffer) hprepared.header.symm
  have hbase : ((a.driver P i).readCommand slot offset).base = f := by
    rw [readCommand_base, hframe, Nat.mod_eq_of_lt h.held.low]
  obtain ⟨hdata, hmoved⟩ := hsends ((a.driver P i).readCommand slot offset) round
  -- the buffer is none of the areas of the port
  have hfis : f ≠ ((a.cleared i s).port i).fisAddress := (husable.apart .fis).symm
  have hlist : f ≠ ((a.cleared i s).port i).commandListAddress := (husable.apart .list).symm
  have haligned := h.held.aligned
  have hfisAligned : ((a.cleared i s).port i).fisAddress % 4096 = 0 := (hready.held .fis).aligned
  have hlistAligned : ((a.cleared i s).port i).commandListAddress % 4096 = 0 := (hready.held .list).aligned
  rw [deviceWrites_apply hready.claUpper hready.fisUpper (hcommand ▸ hbase) (hcommand ▸ readCommand_length), hcommand,
    hdata, hmoved, AhciDriver.transferred, hbase, hframe, readCommand_length, cleared_driver hframe]
  by_cases hin : k < min (d.moved round) 512
  · have hindex : f + P.hhdmOffset + k - (f + P.hhdmOffset) = f + k - f := by omega
    rw [if_pos ⟨by omega, by omega⟩, if_pos ⟨by omega, by omega⟩, hindex]
  · rw [if_neg (by omega), if_neg (by omega), if_neg (by omega), if_neg (by omega), hprepared.buffer k hk]

/-- **`AhciReadSector`** writes what it may and leaves the port as it was. -/
theorem ahciReadSector_kept (h : Usable P count a M i f) (hi : specificInfo.toNat = i) {x : AhciState × SectorRead}
    (hx : a.ahciReadSector P d answer fuel specificInfo offset = some x) : Kept P count a x.1 M i f := by
  subst hi
  obtain ⟨s, hclear, hkept, -⟩ := h.cleared_kept
  rw [AhciState.ahciReadSector, hclear, Option.bind_eq_bind, Option.bind_some] at hx
  dsimp only at hx
  cases hfind : ahciFindFreeCommandSlot ((a.cleared specificInfo.toNat s).driver P specificInfo.toNat) d
      (((a.cleared specificInfo.toNat s).driver P specificInfo.toNat).hbaPort specificInfo) with
  | none =>
    rw [hfind] at hx
    cases hx
    exact hkept
  | some slot =>
    rw [hfind] at hx
    have hslot := (ahciFindFreeCommandSlot_eq_some_iff.mp hfind).lt
    obtain ⟨s₁, s', hprepared⟩ := h.prepare hslot (readFields_fields _ offset) (transfers_read h.held.low)
    obtain rfl := Option.some.inj (hclear.symm.trans hprepared.clear)
    have hbuild := hprepared.build
    rw [← h.buffer] at hbuild
    change (buildCommand P _ slot (readFields a.sataBuffer offset) s >>= _) = _ at hx
    rw [hbuild, Option.bind_eq_bind, Option.bind_some] at hx
    obtain ⟨-, -, hx⟩ := Option.bind_eq_some_iff.mp hx
    obtain ⟨e, -, hx⟩ := Option.bind_eq_some_iff.mp hx
    cases hx
    exact hprepared.answered _

/-- **A read refines the read without memory.** -/
theorem ahciReadSector_refines (h : Usable P count a M i f) (hi : specificInfo.toNat = i)
    (hsends : Sends disk d answer) :
    Option.Rel (fun r x => SameSector r x.2) (ahciReadSector (a.driver P i) d disk fuel specificInfo offset)
      (a.ahciReadSector P d answer fuel specificInfo offset) := by
  subst hi
  obtain ⟨s, hclear, hkept, hcleared⟩ := h.cleared_kept
  obtain ⟨hframe, hbuffer⟩ := sataBuffer_driver h
  rw [AhciState.ahciReadSector, hclear, Option.bind_eq_bind, Option.bind_some, ahciReadSector, ahciReadSectorInner]
  dsimp only
  -- the slot does not depend on the memory
  have hslots : ahciFindFreeCommandSlot ((a.cleared specificInfo.toNat s).driver P specificInfo.toNat) d
      (((a.cleared specificInfo.toNat s).driver P specificInfo.toNat).hbaPort specificInfo) =
    ahciFindFreeCommandSlot (a.driver P specificInfo.toNat) d
      ((a.driver P specificInfo.toNat).hbaPort specificInfo) := rfl
  rw [hslots]
  cases hfind : ahciFindFreeCommandSlot (a.driver P specificInfo.toNat) d
      ((a.driver P specificInfo.toNat).hbaPort specificInfo) with
  | none =>
    refine Option.Rel.some ⟨hbuffer.symm, rfl, fun k hk => ?_⟩
    exact (buffer_sector hkept.usable [] hk).trans ((hcleared k hk).trans (cleared_driver hframe k).symm)
  | some slot =>
    have hslot := (ahciFindFreeCommandSlot_eq_some_iff.mp hfind).lt
    obtain ⟨s₁, s', hprepared⟩ := h.prepare hslot (readFields_fields _ offset) (transfers_read h.held.low)
    obtain rfl := Option.some.inj (hclear.symm.trans hprepared.clear)
    have hbuild := hprepared.build
    rw [← h.buffer] at hbuild
    change Option.Rel _ _ (buildCommand P _ slot (readFields a.sataBuffer offset) s >>= _)
    rw [hbuild, Option.bind_eq_bind, Option.bind_some]
    dsimp only
    -- the buffer after a round, whichever way the loop is left
    have hsame (round : ℕ) (printed : List String) : SameSector
        { address := (a.driver P specificInfo.toNat).sataBuffer
          buffer := (a.driver P specificInfo.toNat).transferred disk
            ((a.driver P specificInfo.toNat).readCommand slot offset) (d.moved round)
            (a.driver P specificInfo.toNat).cleared
          printed := printed }
        (((a.cleared specificInfo.toNat s).answered P specificInfo.toNat slot s'
          (answer (deviceCommand P s'.mem ((a.cleared specificInfo.toNat s).port specificInfo.toNat) slot)
            round)).sector P printed) := by
      refine ⟨hbuffer.symm, rfl, fun k hk => ?_⟩
      rw [buffer_sector (hprepared.answered _).usable printed hk, answered_mem]
      dsimp only
      exact mem_answered h hsends hslot hprepared hk round
    cases hbusy : poll (fun n => d.busy n &&& 0x88 = 0) fuel 0 with
    | none => exact Option.Rel.none
    | some n =>
      rw [Option.bind_eq_bind, Option.bind_some]
      cases hloop : commandLoop d slot fuel 0 with
      | none => exact Option.Rel.none
      | some e =>
        rw [Option.bind_eq_bind, Option.bind_some]
        cases e with
        | failed round => exact Option.Rel.some (hsame round _)
        | cleared round => exact Option.Rel.some (hsame round _)

end Cutesugar.Modules
