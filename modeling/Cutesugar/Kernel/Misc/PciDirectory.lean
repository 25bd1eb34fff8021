import Cutesugar.Kernel.Misc.Pci
import Cutesugar.Kernel.Object.PathCompleteness

/-!
# The directory of the PCI devices

Both the registration of a function and the search for it go through `./Devices/PciDevices`, and the
objects in there have decimal numbers in their names.

- `numberedName_eq`: the names that fit have three digits at most;
- `Located`: the two directories are found with a bound on the rounds;
- `Located.resolve_directory`, `Located.resolve_child`: what the paths resolve to then.
-/

namespace Cutesugar.Kernel.Pci

open Lib Libc

variable {s s' : State} {d o devices dir fuel depth size number : ℕ} {c stem : List UInt8}
  {cs : List (List UInt8)}

/-! ## Names -/

/-- `"Devices"`. -/
def devicesName : List UInt8 := [68, 101, 118, 105, 99, 101, 115]

theorem short_devicesName : devicesName.length ≤ 64 := by decide

/-- `"PciDevices"`. -/
def pciDevicesName : List UInt8 := [80, 99, 105, 68, 101, 118, 105, 99, 101, 115]

/-- The name of a registration. -/
def deviceName (number : ℕ) : List UInt8 := pciDeviceName ++ digitText 10 number

/-- Numbers below 1000 leave room for a NUL in `numstr`. -/
theorem length_digitText_thousand : (digitText 10 number).length ≤ 3 ↔ number < 1000 :=
  length_digitText_le (by decide) (by decide)

theorem digitText_nul : 0 ∉ digitText 10 number := zero_notMem_digitText (by decide) (by decide)

/-- **The name with a number**, as long as the number has three digits at most. -/
theorem numberedName_eq (hstem : 0 ∉ stem) (hsize : stem.length + 3 < size) (hnumber : number < 1000) :
    numberedName size stem number = .ok (pad size (stem ++ digitText 10 number)) := by
  have hlen : (digitText 10 number).length ≤ 3 := length_digitText_thousand.mpr hnumber
  have hfits : (digitText 10 number).length ≤ (List.replicate 4 (0 : UInt8)).length := hlen.trans (by decide)
  have hitoa : itoa number 10 (List.replicate 4 0) = .ok (pad 4 (digitText 10 number)) := by
    rw [itoa_eq (by decide) (by omega), if_pos hfits, List.drop_replicate, pad]
  -- a digit less than the array has bytes: the string in `numstr` ends
  have hnul : pad 4 (digitText 10 number) = _ := pad_eq (Nat.lt_succ_of_le hlen)
  simp only [numberedName, hitoa, bind, Except.bind]
  rw [hnul]
  exact strcat_pad hstem digitText_nul (by omega)

/-- Four digits fill `numstr`, and `strcat` reads on behind it. -/
theorem numberedName_thousand : numberedName 16 pciDeviceName 1000 = .error .overread := by decide

theorem isComponent_deviceName (h : number < 1000) : IsComponent (deviceName number) := by
  have hlen : (digitText 10 number).length ≤ 3 := length_digitText_thousand.mpr h
  have hlength : (deviceName number).length ≤ 12 := by
    rw [deviceName, List.length_append]
    exact Nat.add_le_add_left hlen 9
  have hslash : 47 ∉ digitText 10 number := fun hmem =>
    absurd (mem_hexDigits_of_mem_digitText (by decide) (by decide) hmem) (by decide)
  refine ⟨by simp [deviceName, pciDeviceName], by omega, ?_, ?_, by simp [deviceName, pciDeviceName]⟩
  · rw [deviceName, List.mem_append, not_or]
    exact ⟨by decide, digitText_nul⟩
  · rw [deviceName, List.mem_append, not_or]
    exact ⟨by decide, hslash⟩

theorem deviceName_injective : Function.Injective deviceName :=
  fun _ _ h => digitText_injective (by decide) (by decide) (List.append_cancel_left h)

/-! ## Resolution -/

/-- The current process gets to `./Devices/PciDevices` in the given number of rounds. -/
structure Located (s : State) (fuel devices dir : ℕ) : Prop where
  process : getCurrentProcess s ≠ 0
  root : objGetRootObject fuel s = some s.rootObject
  rootNonnull : s.rootObject ≠ 0
  devicesNonnull : devices ≠ 0
  directoryNonnull : dir ≠ 0
  findsDevices : Finds s fuel s.rootObject devicesName devices
  devicesType : (s.objects devices).header.type = 1
  findsDirectory : Finds s fuel devices pciDevicesName dir
  directoryType : (s.objects dir).header.type = 1

/-- **The directory** is what the path that the registration uses resolves to. -/
theorem Located.resolve_directory (h : Located s fuel devices dir) :
    resolveObjectName fuel s (depth + 3) 0 (some (pciDirectory ++ [0])) = .ok dir := by
  have hdot : resolveObjectName fuel s (depth + 2 + 1) 0
      (some ([46, 47] ++ joinPath [devicesName, pciDevicesName] ++ 0 :: [])) = _ :=
    resolveObjectName_dot (.inr h.process) h.root (by decide) []
  rw [if_pos (by decide), pad_eq (by decide),
    h.findsDevices.resolve (by decide) (by decide) h.rootNonnull (by decide) h.devicesType, joinPath, pad_eq (by decide),
    resolveObjectName_last (by decide) h.devicesNonnull] at hdot
  obtain ⟨t, hfind, ht, hitem⟩ := h.findsDirectory
  rw [hfind] at hdot
  exact hdot.trans (congrArg Except.ok ((if_neg ht).trans hitem))

/-- **An object in the directory** is found through the path with its name behind. -/
theorem Located.resolve_child (h : Located s fuel devices dir) (hc : IsComponent c) (rest : List UInt8) :
    resolveObjectName fuel s (depth + 4) 0 (some (pciDirectory ++ 47 :: c ++ 0 :: rest)) =
      (findChild s (pad 32 c) fuel (s.objects dir).headerList).map
        fun t => if t = 0 then 0 else (s.lists t).item := by
  have hcomps : ∀ x ∈ [devicesName, pciDevicesName, c], IsComponent x := by
    intro x hx
    simp only [List.mem_cons, List.not_mem_nil, or_false] at hx
    rcases hx with rfl | rfl | rfl
    · decide
    · decide
    · exact hc
  have hlen := hc.length
  have hshort : (joinPath [devicesName, pciDevicesName, c]).length ≤ 255 := by
    simp only [joinPath, List.length_append, List.length_cons]
    exact (Nat.add_le_add_left (Nat.succ_le_succ (Nat.add_le_add_left (Nat.succ_le_succ hlen) 10)) 7).trans
      (by decide)
  have hfits : Fits [devicesName, pciDevicesName, c] := by
    rw [joinPath_cons (by simp), List.length_append, List.length_cons] at hshort
    rw [Fits, List.tail_cons]
    omega
  have hdot : resolveObjectName fuel s (depth + 3 + 1) 0
      (some ([46, 47] ++ joinPath [devicesName, pciDevicesName, c] ++ 0 :: rest)) = _ :=
    resolveObjectName_dot (.inr h.process) h.root (joinPath_nul hcomps) rest
  have hbelow : ∀ x ∈ [pciDevicesName, c], IsComponent x := fun x hx => hcomps x (List.mem_cons_of_mem _ hx)
  -- the dot, `Devices`, `PciDevices`, and the search
  rw [if_pos hshort, pad_eq (Nat.lt_succ_of_le hshort),
    h.findsDevices.resolve hcomps (by simp) h.rootNonnull hfits h.devicesType, pad_joinPath hfits,
    h.findsDirectory.resolve hbelow (by simp) h.devicesNonnull hfits.tail h.directoryType, joinPath,
    pad_eq (by omega), resolveObjectName_last hc h.directoryNonnull] at hdot
  have hpath : pciDirectory ++ 47 :: c ++ 0 :: rest =
      [46, 47] ++ joinPath [devicesName, pciDevicesName, c] ++ 0 :: rest := by
    simp [pciDirectory, joinPath, devicesName, pciDevicesName]
  rw [hpath]
  exact hdot

end Cutesugar.Kernel.Pci
