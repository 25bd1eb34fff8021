import Cutesugar.Kernel.Misc.Pci
import Cutesugar.Lib.Preorder

/-!
# The walk over the buses

`HalCheckPciBus` goes from a bus to the buses behind its bridges and does not remember where it has
been. It takes a function for a bridge whose device has header type 1 in function 0, which is then not
multi-function; so it follows no other bridge.

- `busParts`: what it does on one bus, in order.
- `halCheckPciBus_eq_foldlM`: the registrations it makes.
- `enumeration_terminates_iff`: when it returns.
-/

namespace Cutesugar.Kernel.Pci

open Lib Libc Relation

variable (space : UInt32 → UInt32)

/-! ## Parts -/

/-- The bus behind an object. -/
def bridgeParts (x : PCIObject) : List (Part UInt8 Position) :=
  if x.type = 1 then [.descend x.information.secondaryBusNumber] else []

def functionParts (bus : UInt8) (dev func : ℕ) : List (Part UInt8 Position) :=
  let p : Position := ⟨bus, UInt8.ofNat dev, UInt8.ofNat func⟩
  if halCheckPciDevice space p then .emit p :: bridgeParts (pciObject space p) else []

def deviceParts (bus : UInt8) (dev : ℕ) : List (Part UInt8 Position) :=
  let p : Position := ⟨bus, UInt8.ofNat dev, 0⟩
  if halCheckPciDevice space p then
    .emit p :: bridgeParts (pciObject space p) ++
      if (pciObject space p).information.header.headerType &&& 0x80 ≠ 0 then
        (List.range' 1 7).flatMap (functionParts space bus dev)
      else []
  else []

/-- What `HalCheckPciBus` does on a bus: it registers a function, or goes on with another bus. -/
def busParts (bus : UInt8) : List (Part UInt8 Position) := (List.range 32).flatMap (deviceParts space bus)

variable {space} {σ : Type} {register : σ → Position → Except Fault (PCIObject × σ)}
  {check : σ → ℤ → Except Fault σ} {s s' : σ} {p : Position} {bus : UInt8} {dev func fuel : ℕ} {busNum : ℤ}

/-! ## Loops -/

theorem ofInt_charOf (c : UInt8) : UInt8.ofInt (charOf c) = c := by
  have hmod : charOf c % 2 ^ 8 = (c.toNat : ℤ) := by
    change c.toBitVec.toInt % 2 ^ 8 = (c.toBitVec.toNat : ℤ)
    have hlt := c.toBitVec.isLt
    rw [BitVec.toInt_eq_toNat_cond]
    split_ifs
    · omega
    · omega
  rw [UInt8.ofInt, hmod]
  simp

/-- A loop over the parts of all elements of a list. -/
theorem foldlM_flatMap {ε α β γ : Type} (f : α → β → Except ε α) (g : γ → List β) (l : List γ) (a : α) :
    (l.flatMap g).foldlM f a = l.foldlM (fun a c => (g c).foldlM f a) a := by
  induction l generalizing a with
  | nil => rfl
  | cons c l ih =>
    rw [List.flatMap_cons, List.foldlM_append, List.foldlM_cons]
    exact congrArg _ (funext fun a => ih a)

/-- A registration returns the object that it made. -/
def Registers (space : UInt32 → UInt32) (register : σ → Position → Except Fault (PCIObject × σ)) : Prop :=
  ∀ s p x s', register s p = .ok (x, s') → x = pciObject space p

/-- A registration without the object. -/
def registered (register : σ → Position → Except Fault (PCIObject × σ)) (s : σ) (p : Position) :
    Except Fault σ :=
  (register s p).map Prod.snd

/-- What is done for a part. -/
def part (register : σ → Position → Except Fault (PCIObject × σ)) (check : σ → ℤ → Except Fault σ) (s : σ) :
    Part UInt8 Position → Except Fault σ
  | .emit p => registered register s p
  | .descend bus => check s (charOf bus)

/-- What follows a registration. -/
theorem register_bind (h : Registers space register) {α : Type} {f : PCIObject → σ → Except Fault α} :
    (register s p >>= fun r => f r.1 r.2) =
      registered register s p >>= fun s => f (pciObject space p) s := by
  cases hr : register s p with
  | error e => simp [registered, hr, bind, Except.bind, Except.map]
  | ok r =>
    obtain ⟨x, s'⟩ := r
    obtain rfl := h s p x s' hr
    simp [registered, hr, bind, Except.bind, Except.map]

theorem checkBridge_eq (x : PCIObject) :
    checkBridge check s x = (bridgeParts x).foldlM (part register check) s := by
  unfold checkBridge bridgeParts
  split_ifs with htype
  · exact (bind_pure _).symm
  · rfl

theorem checkFunction_eq (h : Registers space register) :
    checkFunction space register check busNum dev s func =
      (functionParts space (UInt8.ofInt busNum) dev func).foldlM (part register check) s := by
  unfold checkFunction functionParts
  dsimp only
  split_ifs with hcheck
  · rw [List.foldlM_cons]
    refine (register_bind h (f := fun x s => checkBridge check s x)).trans ?_
    exact congrArg _ (funext fun s => checkBridge_eq _)
  · rfl

theorem checkDevice_eq (h : Registers space register) :
    checkDevice space register check busNum s dev =
      (deviceParts space (UInt8.ofInt busNum) dev).foldlM (part register check) s := by
  unfold checkDevice deviceParts
  dsimp only
  by_cases hcheck : halCheckPciDevice space ⟨UInt8.ofInt busNum, UInt8.ofNat dev, 0⟩
  · rw [if_pos hcheck, if_pos hcheck, List.cons_append, List.foldlM_cons]
    refine (register_bind h (f := fun x s => do
      let s ← checkBridge check s x
      if x.information.header.headerType &&& 0x80 ≠ 0 then
        (List.range' 1 7).foldlM (checkFunction space register check busNum dev) s
      else .ok s)).trans (congrArg _ (funext fun s => ?_))
    rw [List.foldlM_append, checkBridge_eq]
    refine congrArg _ (funext fun s => ?_)
    split_ifs with hmulti
    · rw [foldlM_flatMap]
      exact congrArg (fun f => (List.range' 1 7).foldlM f s)
        (funext fun s => funext fun func => checkFunction_eq h)
    · rfl
  · rw [if_neg hcheck, if_neg hcheck]
    rfl

/-- **A bus** is a loop over its parts. -/
theorem halCheckPciBus_succ (h : Registers space register) (fuel : ℕ) (s : σ) (busNum : ℤ) :
    halCheckPciBus space register (fuel + 1) s busNum = (busParts space (UInt8.ofInt busNum)).foldlM
      (part register (halCheckPciBus space register fuel)) s := by
  rw [halCheckPciBus, busParts, foldlM_flatMap]
  exact congrArg (fun f => (List.range 32).foldlM f s)
    (funext fun s => funext fun dev => checkDevice_eq h)

/-! ## Registrations -/

/-- A loop over parts, of which those that go on with another bus make the registrations of it. -/
theorem foldlM_parts {fuel : ℕ} (h : ∀ s c vs, preorder (busParts space) fuel c = some vs →
      check s (charOf c) = vs.foldlM (registered register) s)
    {parts : List (Part UInt8 Position)} {results : List (List Position)}
    (hresults : parts.map (Part.emitted (preorder (busParts space) fuel)) = results.map some) (s : σ) :
    parts.foldlM (part register check) s = results.flatten.foldlM (registered register) s := by
  induction parts generalizing results s with
  | nil =>
    obtain rfl : results = [] := by simpa using hresults.symm
    rfl
  | cons q parts ih =>
    cases results with
    | nil => simp at hresults
    | cons result results =>
      rw [List.map_cons, List.map_cons] at hresults
      obtain ⟨hfirst, hrest⟩ := List.cons.inj hresults
      have hpart : part register check s q = result.foldlM (registered register) s := by
        cases q with
        | emit p =>
          obtain rfl := Option.some.inj hfirst
          exact (bind_pure _).symm
        | descend c => exact h s c result hfirst
      rw [List.foldlM_cons, List.flatten_cons, List.foldlM_append, hpart]
      exact congrArg _ (funext fun s => ih hrest s)

/-- **The registrations** that the walk over the buses makes, in order. -/
theorem halCheckPciBus_eq_foldlM (h : Registers space register) {ps : List Position}
    (hps : preorder (busParts space) fuel (UInt8.ofInt busNum) = some ps) (s : σ) :
    halCheckPciBus space register fuel s busNum = ps.foldlM (registered register) s := by
  induction fuel generalizing busNum ps s with
  | zero => cases hps
  | succ fuel ih =>
    rw [preorder] at hps
    obtain ⟨results, hmap, rfl⟩ := Option.map_eq_some_iff.mp hps
    rw [halCheckPciBus_succ h]
    refine foldlM_parts (fun s c vs hvs => ?_) (mapM_eq_some hmap) s
    rw [← ofInt_charOf c] at hvs
    exact ih hvs s

/-- A run that returns has come to the end of the walk. -/
theorem preorder_of_halCheckPciBus (h : Registers space register)
    (hrun : halCheckPciBus space register fuel s busNum = .ok s') :
    (preorder (busParts space) fuel (UInt8.ofInt busNum)).isSome := by
  induction fuel generalizing busNum s s' with
  | zero => cases hrun
  | succ fuel ih =>
    rw [halCheckPciBus_succ h] at hrun
    rw [preorder_isSome_succ]
    intro c hc
    unfold Descends at hc
    generalize busParts space (UInt8.ofInt busNum) = parts at hrun hc
    induction parts generalizing s with
    | nil => exact absurd hc List.not_mem_nil
    | cons q parts ihparts =>
      rw [List.foldlM_cons] at hrun
      obtain ⟨s₁, hfirst, hrest⟩ := bind_eq_ok.mp hrun
      rcases List.mem_cons.mp hc with rfl | hmem
      · rw [← ofInt_charOf c]
        exact ih hfirst
      · exact ihparts hrest hmem

/-! ## Bridges -/

/-- Function 0 of the same device. -/
def Position.first (p : Position) : Position := { p with function := 0 }

/-- The header type, with the bit for more than one function. -/
def Position.headerType (p : Position) (space : UInt32 → UInt32) : UInt8 := (p.header space).headerType

/-- The bus that a bridge leads to. -/
def Position.secondary (p : Position) (space : UInt32 → UInt32) : UInt8 :=
  (p.word space 0x1C >>> 8 &&& 0xFF).toUInt8

theorem and_eq_one_iff (w : UInt16) : w &&& 0xFF = 1 ↔ (w &&& 0xFF).toUInt8 = 1 := by
  constructor
  · intro h
    rw [h]
    rfl
  · intro h
    have hnat : (w &&& 0xFF).toNat % 256 = 1 := by
      have hcongr := congrArg UInt8.toNat h
      rwa [UInt16.toNat_toUInt8] at hcongr
    have hle : (w &&& 0xFF).toNat ≤ 255 := by
      rw [UInt16.toNat_and]
      exact Nat.and_le_right
    apply UInt16.toNat_inj.mp
    change (w &&& 0xFF).toNat = 1
    omega

theorem pciObject_of_bridge (h : p.first.headerType space = 1) : (pciObject space p).type = 1 ∧
    (pciObject space p).information.header.headerType = 1 ∧
    (pciObject space p).information.secondaryBusNumber = p.first.secondary space := by
  have hword : p.first.word space 0xE &&& 0xFF = 1 := (and_eq_one_iff _).mpr h
  unfold Position.first at hword
  unfold pciObject
  rw [if_pos hword]
  exact ⟨rfl, h, rfl⟩

theorem pciObject_of_not_bridge (h : p.first.headerType space ≠ 1) : (pciObject space p).type = 0 ∧
    (pciObject space p).information.header.headerType = p.headerType space := by
  have hword : ¬ p.first.word space 0xE &&& 0xFF = 1 := fun hword => h ((and_eq_one_iff _).mp hword)
  unfold Position.first at hword
  unfold pciObject
  rw [if_neg hword]
  exact ⟨rfl, rfl⟩

theorem bridgeParts_of_bridge (h : p.first.headerType space = 1) :
    bridgeParts (pciObject space p) = [.descend (p.first.secondary space)] := by
  obtain ⟨htype, -, hsecondary⟩ := pciObject_of_bridge h
  rw [bridgeParts, if_pos htype, hsecondary]

theorem bridgeParts_of_not_bridge (h : p.first.headerType space ≠ 1) :
    bridgeParts (pciObject space p) = [] := by
  rw [bridgeParts, (pciObject_of_not_bridge h).1]
  rfl

/-- The bit for more than one function is read from function 0. -/
theorem headerType_pciObject_first (space : UInt32 → UInt32) (p : Position) :
    (pciObject space p.first).information.header.headerType = p.first.headerType space := by
  by_cases hbridge : p.first.headerType space = 1
  · rw [(pciObject_of_bridge (p := p.first) hbridge).2.1, hbridge]
  · exact (pciObject_of_not_bridge (p := p.first) hbridge).2

/-- A bridge that `HalCheckPciBus` follows: a device whose function 0 has header type 1, without the bit
for more than one function. -/
def Followed (space : UInt32 → UInt32) (bus c : UInt8) : Prop :=
  ∃ dev < 32, halCheckPciDevice space ⟨bus, UInt8.ofNat dev, 0⟩ ∧
    Position.headerType ⟨bus, UInt8.ofNat dev, 0⟩ space = 1 ∧
    Position.secondary ⟨bus, UInt8.ofNat dev, 0⟩ space = c

/-- **The parts of a device**: function 0, then the bus behind a bridge, or the other functions. -/
theorem deviceParts_eq (space : UInt32 → UInt32) (bus : UInt8) (dev : ℕ) :
    deviceParts space bus dev =
      let p : Position := ⟨bus, UInt8.ofNat dev, 0⟩
      if halCheckPciDevice space p then
        if p.headerType space = 1 then [.emit p, .descend (p.secondary space)]
        else if p.headerType space &&& 0x80 ≠ 0 then
          .emit p :: ((List.range' 1 7).filterMap fun func =>
            let p : Position := ⟨bus, UInt8.ofNat dev, UInt8.ofNat func⟩
            if halCheckPciDevice space p then some (.emit p) else none)
        else [.emit p]
      else [] := by
  unfold deviceParts
  dsimp only
  have hheader : (pciObject space ⟨bus, UInt8.ofNat dev, 0⟩).information.header.headerType =
      Position.headerType ⟨bus, UInt8.ofNat dev, 0⟩ space := headerType_pciObject_first space ⟨bus, UInt8.ofNat dev, 0⟩
  by_cases hcheck : halCheckPciDevice space ⟨bus, UInt8.ofNat dev, 0⟩
  · rw [if_pos hcheck, if_pos hcheck, hheader]
    by_cases hone : Position.headerType ⟨bus, UInt8.ofNat dev, 0⟩ space = 1
    · -- a header type of 1 has not the bit for several functions
      have hbridge : bridgeParts (pciObject space ⟨bus, UInt8.ofNat dev, 0⟩) = _ := bridgeParts_of_bridge hone
      rw [if_pos hone, hbridge, if_neg (by rw [hone]; decide)]
      rfl
    · -- the header type of function 0 decides for all functions
      have hnone (func : ℕ) :
          bridgeParts (pciObject space ⟨bus, UInt8.ofNat dev, UInt8.ofNat func⟩) = [] :=
        bridgeParts_of_not_bridge hone
      have hfirst : bridgeParts (pciObject space ⟨bus, UInt8.ofNat dev, 0⟩) = [] := hnone 0
      have hfunctions : functionParts space bus dev = fun func =>
          ((if halCheckPciDevice space ⟨bus, UInt8.ofNat dev, UInt8.ofNat func⟩ then
            some (Part.emit ⟨bus, UInt8.ofNat dev, UInt8.ofNat func⟩) else none :
              Option (Part UInt8 Position))).toList := by
        funext func
        unfold functionParts
        dsimp only
        rw [hnone]
        split_ifs with hfunction
        · rfl
        · rfl
      rw [if_neg hone, hfirst, hfunctions]
      split_ifs with hmulti
      · rw [List.filterMap_eq_flatMap_toList]
        rfl
      · rfl
  · rw [if_neg hcheck, if_neg hcheck]

/-- A function that is there: function 0, or another one of a device with the bit for more than one. -/
structure Present (space : UInt32 → UInt32) (p : Position) : Prop where
  slot : p.slot < 32
  first : halCheckPciDevice space p.first
  other : p.function ≠ 0 → p.first.headerType space &&& 0x80 ≠ 0 ∧ p.function < 8 ∧ halCheckPciDevice space p

/-- The emitted functions of a device with the bit for more than one. -/
theorem mem_functions {bus : UInt8} {dev : ℕ} {q : Part UInt8 Position} :
    (q ∈ (List.range' 1 7).filterMap fun func =>
      let p : Position := ⟨bus, UInt8.ofNat dev, UInt8.ofNat func⟩
      if halCheckPciDevice space p then some (Part.emit (α := UInt8) p) else none) ↔
      ∃ p : Position, q = .emit p ∧ p.bus = bus ∧ p.slot = UInt8.ofNat dev ∧ p.function ≠ 0 ∧ p.function < 8 ∧
        halCheckPciDevice space p := by
  simp only [List.mem_filterMap, List.mem_range'_1, Option.ite_none_right_eq_some, Option.some.injEq]
  constructor
  · rintro ⟨func, ⟨hpos, hlt⟩, hcheck, rfl⟩
    refine ⟨_, rfl, rfl, rfl, ?_, ?_, hcheck⟩
    · intro hzero
      have hnat := congrArg UInt8.toNat hzero
      rw [UInt8.toNat_ofNat'] at hnat
      change func % 256 = 0 at hnat
      omega
    · apply UInt8.lt_iff_toNat_lt.mpr
      rw [UInt8.toNat_ofNat']
      change func % 256 < 8
      omega
  · rintro ⟨p, rfl, rfl, hslot, hne, hlt, hcheck⟩
    have hfunction : UInt8.ofNat p.function.toNat = p.function := UInt8.ofNat_toNat
    refine ⟨p.function.toNat, ⟨?_, ?_⟩, ?_, ?_⟩
    · exact Nat.pos_of_ne_zero fun hzero => hne (UInt8.toNat_inj.mp hzero)
    · exact UInt8.lt_iff_toNat_lt.mp hlt
    · rw [hfunction, ← hslot]
      exact hcheck
    · rw [hfunction, ← hslot]

/-- The slot of a device as a number. -/
theorem slot_lt_iff {slot : UInt8} : slot < 32 ↔ ∃ dev < 32, slot = UInt8.ofNat dev := by
  constructor
  · exact fun h => ⟨slot.toNat, UInt8.lt_iff_toNat_lt.mp h, UInt8.ofNat_toNat.symm⟩
  · rintro ⟨dev, hdev, rfl⟩
    apply UInt8.lt_iff_toNat_lt.mpr
    rw [UInt8.toNat_ofNat']
    change dev % 256 < 32
    omega

theorem emit_mem_deviceParts {bus : UInt8} {dev : ℕ} (hdev : dev < 32) :
    .emit p ∈ deviceParts space bus dev ↔ p.bus = bus ∧ p.slot = UInt8.ofNat dev ∧ Present space p := by
  constructor
  · intro h
    rw [deviceParts_eq] at h
    dsimp only at h
    split_ifs at h with hcheck hone hmulti
    · -- a bridge has function 0 only
      rcases List.mem_cons.mp h with heq | hmem
      · obtain rfl := Part.emit.inj heq
        exact ⟨rfl, rfl, slot_lt_iff.mpr ⟨dev, hdev, rfl⟩, hcheck, fun hne => absurd rfl hne⟩
      · cases List.mem_singleton.mp hmem
    · rcases List.mem_cons.mp h with heq | hmem
      · obtain rfl := Part.emit.inj heq
        exact ⟨rfl, rfl, slot_lt_iff.mpr ⟨dev, hdev, rfl⟩, hcheck, fun hne => absurd rfl hne⟩
      · obtain ⟨p', heq, hbus, hslot, -, hlt, hfunction⟩ := mem_functions.mp hmem
        obtain rfl := Part.emit.inj heq
        have hfirst : p.first = ⟨bus, UInt8.ofNat dev, 0⟩ := by
          rw [Position.first, hbus, hslot]
        refine ⟨hbus, hslot, slot_lt_iff.mpr ⟨dev, hdev, hslot⟩, ?_, fun _ => ⟨?_, hlt, hfunction⟩⟩
        · rw [hfirst]
          exact hcheck
        · rw [hfirst]
          exact hmulti
    · obtain rfl := Part.emit.inj (List.mem_singleton.mp h)
      exact ⟨rfl, rfl, slot_lt_iff.mpr ⟨dev, hdev, rfl⟩, hcheck, fun hne => absurd rfl hne⟩
    · exact absurd h List.not_mem_nil
  · rintro ⟨hbus, hslot, hpresent⟩
    have hfirst : p.first = ⟨bus, UInt8.ofNat dev, 0⟩ := by
      rw [Position.first, hbus, hslot]
    rw [deviceParts_eq, ← hfirst]
    dsimp only
    rw [if_pos hpresent.first]
    by_cases hzero : p.function = 0
    · have hself : p = p.first := by rw [Position.first, ← hzero]
      rw [← hself]
      split_ifs with hone hmulti
      · exact List.mem_cons_self ..
      · exact List.mem_cons_self ..
      · exact List.mem_singleton_self _
    · obtain ⟨hmulti, hlt, hcheck⟩ := hpresent.other hzero
      have hone : p.first.headerType space ≠ 1 := by
        intro hone
        rw [hone] at hmulti
        exact hmulti (by decide)
      rw [if_neg hone, if_pos hmulti]
      exact List.mem_cons_of_mem _ (mem_functions.mpr ⟨p, rfl, hbus, hslot, hzero, hlt, hcheck⟩)

theorem descend_mem_deviceParts {bus c : UInt8} {dev : ℕ} :
    .descend c ∈ deviceParts space bus dev ↔ halCheckPciDevice space ⟨bus, UInt8.ofNat dev, 0⟩ ∧
      Position.headerType ⟨bus, UInt8.ofNat dev, 0⟩ space = 1 ∧
      Position.secondary ⟨bus, UInt8.ofNat dev, 0⟩ space = c := by
  rw [deviceParts_eq]
  dsimp only
  split_ifs with hcheck hone hmulti
  · simp [hcheck, hone, eq_comm]
  · have hnot : Part.descend c ∉ (List.range' 1 7).filterMap fun func =>
        let p : Position := ⟨bus, UInt8.ofNat dev, UInt8.ofNat func⟩
        if halCheckPciDevice space p then some (Part.emit p) else none := by
      rw [mem_functions]
      rintro ⟨p, hp, -⟩
      cases hp
    simp [hone]
  · simp [hone]
  · simp [hcheck]

/-! ## Buses -/

theorem emit_mem_busParts : .emit p ∈ busParts space bus ↔ p.bus = bus ∧ Present space p := by
  rw [busParts, List.mem_flatMap]
  constructor
  · rintro ⟨dev, hdev, hmem⟩
    obtain ⟨hbus, -, hpresent⟩ := (emit_mem_deviceParts (List.mem_range.mp hdev)).mp hmem
    exact ⟨hbus, hpresent⟩
  · rintro ⟨hbus, hpresent⟩
    obtain ⟨dev, hdev, hslot⟩ := slot_lt_iff.mp hpresent.slot
    exact ⟨dev, List.mem_range.mpr hdev, (emit_mem_deviceParts hdev).mpr ⟨hbus, hslot, hpresent⟩⟩

/-- The walk goes on behind the bridges that are followed. -/
theorem descends_iff {c : UInt8} : Descends (busParts space) bus c ↔ Followed space bus c := by
  simp only [Descends, busParts, List.mem_flatMap, List.mem_range, descend_mem_deviceParts, Followed]

theorem descends_eq : Descends (busParts space) = Followed space :=
  funext fun _ => funext fun _ => propext descends_iff

/-- Two parts that do not register the same function. -/
def Apart (x y : Part UInt8 Position) : Prop := ∀ p, x = .emit p → y ≠ .emit p

theorem ofNat_injective {i j : ℕ} (hi : i < 256) (hj : j < 256) (h : UInt8.ofNat i = UInt8.ofNat j) :
    i = j := by
  have hnat := congrArg UInt8.toNat h
  rwa [UInt8.toNat_ofNat', UInt8.toNat_ofNat', Nat.mod_eq_of_lt hi, Nat.mod_eq_of_lt hj] at hnat

theorem apart_functions {bus : UInt8} {dev : ℕ} :
    ((List.range' 1 7).filterMap fun func =>
      let p : Position := ⟨bus, UInt8.ofNat dev, UInt8.ofNat func⟩
      if halCheckPciDevice space p then some (Part.emit (α := UInt8) p) else none).Pairwise Apart := by
  have hrange : (List.range' 1 7).Pairwise fun i j => i < j ∧ j < 8 := by decide
  refine hrange.filterMap _ fun i j hij x hx y hy p hxp hyp => ?_
  obtain ⟨hlt, hj⟩ := hij
  rw [Option.ite_none_right_eq_some, Option.some.injEq] at hx hy
  -- the functions of the two are the same
  have hsame : UInt8.ofNat i = UInt8.ofNat j :=
    congrArg Position.function (Part.emit.inj ((hx.2.trans hxp).trans (hy.2.trans hyp).symm))
  have hindex := ofNat_injective (by omega) (by omega) hsame
  omega

theorem apart_deviceParts {bus : UInt8} {dev : ℕ} : (deviceParts space bus dev).Pairwise Apart := by
  rw [deviceParts_eq]
  dsimp only
  split_ifs with hcheck hone hmulti
  · refine List.pairwise_cons.mpr ⟨fun y hy p hp => ?_, List.pairwise_singleton _ _⟩
    rw [List.mem_singleton.mp hy]
    exact fun heq => by cases heq
  · refine List.pairwise_cons.mpr ⟨fun y hy p hp hyp => ?_, apart_functions⟩
    obtain ⟨p', rfl, -, -, hne, -, -⟩ := mem_functions.mp hy
    obtain rfl := Part.emit.inj hp
    exact hne (congrArg Position.function (Part.emit.inj hyp))
  · exact List.pairwise_singleton _ _
  · exact List.Pairwise.nil

theorem apart_busParts : (busParts space bus).Pairwise Apart := by
  rw [busParts, List.pairwise_flatMap]
  refine ⟨fun dev _ => apart_deviceParts, ?_⟩
  have hrange : (List.range 32).Pairwise fun i j => i ∈ List.range 32 ∧ j ∈ List.range 32 ∧ i ≠ j :=
    List.Pairwise.and_mem.mp List.nodup_range
  refine hrange.imp fun {i j} hij x hx y hy p hxp hyp => ?_
  obtain ⟨hi, hj, hne⟩ := hij
  have hilt := List.mem_range.mp hi
  have hjlt := List.mem_range.mp hj
  rw [hxp] at hx
  rw [hyp] at hy
  -- the slots of the two are the same
  have hslot := ((emit_mem_deviceParts hilt).mp hx).2.1.symm.trans ((emit_mem_deviceParts hjlt).mp hy).2.1
  exact hne (ofNat_injective (by omega) (by omega) hslot)

/-- A function is registered at one place of one bus. -/
theorem emit_place {c c' : UInt8} {i i' : ℕ} (hi : (busParts space c)[i]? = some (.emit p))
    (hi' : (busParts space c')[i']? = some (.emit p)) : c = c' ∧ i = i' := by
  have hbus := (emit_mem_busParts.mp (List.mem_of_getElem? hi)).1
  have hbus' := (emit_mem_busParts.mp (List.mem_of_getElem? hi')).1
  obtain rfl : c = c' := hbus.symm.trans hbus'
  refine ⟨rfl, ?_⟩
  have hapart (j k : ℕ) (hjk : j < k) (hj : (busParts space c)[j]? = some (.emit p))
      (hk : (busParts space c)[k]? = some (.emit p)) : False := by
    obtain ⟨hjlt, hj⟩ := List.getElem?_eq_some_iff.mp hj
    obtain ⟨hklt, hk⟩ := List.getElem?_eq_some_iff.mp hk
    exact List.pairwise_iff_getElem.mp apart_busParts j k hjlt hklt hjk p hj hk
  rcases Nat.lt_trichotomy i i' with hlt | heq | hlt
  · exact (hapart i i' hlt hi hi').elim
  · exact heq
  · exact (hapart i' i hlt hi' hi).elim

/-! ## Termination -/

/-- The walk from a bus comes to no bus that it comes to again from there. -/
def Acyclic (space : UInt32 → UInt32) (bus : UInt8) : Prop :=
  ∀ c, ReflTransGen (Followed space) bus c → ¬ TransGen (Followed space) c c

theorem exists_preorder_iff_acyclic :
    (∃ fuel, (preorder (busParts space) fuel bus).isSome) ↔ Acyclic space bus := by
  have hbuses : Finite UInt8 := Finite.of_injective UInt8.toFin fun _ _ => UInt8.toFin_inj.mp
  rw [exists_preorder_iff, Acyclic, Visited, descends_eq]

/-- A loop in which every round returns does so. -/
theorem foldlM_ok {ε α β : Type} {f : α → β → Except ε α} (h : ∀ a b, ∃ a', f a b = .ok a') (l : List β)
    (a : α) : ∃ a', l.foldlM f a = .ok a' := by
  induction l generalizing a with
  | nil => exact ⟨a, rfl⟩
  | cons b l ih =>
    obtain ⟨a₁, hfirst⟩ := h a b
    obtain ⟨a', hrest⟩ := ih a₁
    refine ⟨a', ?_⟩
    rw [List.foldlM_cons, hfirst]
    exact hrest

/-- **Termination**: with registrations that return, `HalCheckPciBus(0)` returns exactly if the bridges that
it follows from bus 0 on make no cycle. -/
theorem enumeration_terminates_iff
    (h : ∀ s p, ∃ s', register s p = .ok (pciObject space p, s')) (s : σ) :
    (∃ fuel s', halCheckPciBus space register fuel s 0 = .ok s') ↔ Acyclic space 0 := by
  have hregisters : Registers space register := by
    intro s p x s' hx
    obtain ⟨s'', hs''⟩ := h s p
    exact (Prod.mk.inj (Except.ok.inj (hx.symm.trans hs''))).1
  rw [← exists_preorder_iff_acyclic]
  constructor
  · rintro ⟨fuel, s', hrun⟩
    exact ⟨fuel, preorder_of_halCheckPciBus hregisters hrun⟩
  · rintro ⟨fuel, hsome⟩
    obtain ⟨ps, hps⟩ := Option.isSome_iff_exists.mp hsome
    have hround (s : σ) (p : Position) : ∃ s', registered register s p = .ok s' := by
      obtain ⟨s', hs'⟩ := h s p
      exact ⟨s', by rw [registered, hs']; rfl⟩
    obtain ⟨s', hs'⟩ := foldlM_ok hround ps s
    have hbus : UInt8.ofInt 0 = 0 := rfl
    rw [← hbus] at hps
    exact ⟨fuel, s', (halCheckPciBus_eq_foldlM hregisters hps s).trans hs'⟩

/-- A configuration space with the given functions, each with the doublewords that are not zero. -/
def configSpace (functions : List (Position × List (UInt32 × UInt32))) (address : UInt32) : UInt32 :=
  let p : Position :=
    ⟨(address >>> 16).toUInt8, (address >>> 11 &&& 31).toUInt8, (address >>> 8 &&& 7).toUInt8⟩
  ((functions.lookup p).map fun registers => (registers.lookup (address &&& 0xFC)).getD 0).getD 0xFFFFFFFF

/-- A registration that keeps a list. -/
def enlist (space : UInt32 → UInt32) (s : List Position) (p : Position) :
    Except Fault (PCIObject × List Position) :=
  .ok (pciObject space p, s ++ [p])

/-- A bridge from bus 0 to bus 1 with a device behind it. The header type stands in the third byte of its
doubleword, the bus numbers at `0x18`; what is at `0x1C` has the same value. -/
def bridgeSpace : UInt32 → UInt32 :=
  configSpace [(⟨0, 3, 0⟩, [(0, 0x12348086), (0xC, 0x00010000), (0x18, 0x00010100), (0x1C, 0x00000100)]),
    (⟨1, 0, 0⟩, [(0, 0x56788086)])]

/-- The bridge in slot 3 is the only one of bus 0. -/
theorem followed_bridgeSpace {c : UInt8} (h : Followed bridgeSpace 0 c) : c = 1 := by
  obtain ⟨dev, hdev, hcheck, -, hsecondary⟩ := h
  have honly : ∀ dev < 32, halCheckPciDevice bridgeSpace ⟨0, UInt8.ofNat dev, 0⟩ → dev = 3 := by
    decide
  obtain rfl := honly dev hdev hcheck
  rw [← hsecondary]
  decide

/-- There is no bridge on bus 1. -/
theorem not_followed_bridgeSpace (c : UInt8) : ¬ Followed bridgeSpace 1 c := by
  rintro ⟨dev, hdev, hcheck, hheader, -⟩
  have honly : ∀ dev < 32, halCheckPciDevice bridgeSpace ⟨1, UInt8.ofNat dev, 0⟩ → dev = 0 := by
    decide
  obtain rfl := honly dev hdev hcheck
  revert hheader
  decide

theorem enumeration_terminates_bridge :
    ∃ fuel s', halCheckPciBus bridgeSpace (enlist bridgeSpace) fuel [] 0 = .ok s' := by
  refine (enumeration_terminates_iff (fun s p => ⟨s ++ [p], rfl⟩) []).mpr fun c hc hcycle => ?_
  obtain ⟨d, hcd, hdc⟩ := TransGen.head'_iff.mp hcycle
  rcases ReflTransGen.cases_head hc with rfl | ⟨e, he, hec⟩
  · -- back from bus 1 there is no way
    obtain rfl := followed_bridgeSpace hcd
    rcases ReflTransGen.cases_head hdc with heq | ⟨e, he, -⟩
    · exact absurd heq (by decide)
    · exact not_followed_bridgeSpace e he
  · obtain rfl := followed_bridgeSpace he
    rcases ReflTransGen.cases_head hec with rfl | ⟨e, he, -⟩
    · exact not_followed_bridgeSpace d hcd
    · exact not_followed_bridgeSpace e he

/-- A bridge with no bus numbers. -/
def unconfiguredSpace : UInt32 → UInt32 :=
  configSpace [(⟨0, 0, 0⟩, [(0, 0x12348086), (0xC, 0x00010000)])]

theorem followed_unconfiguredSpace : Followed unconfiguredSpace 0 0 := by
  refine ⟨0, by decide, ?_, ?_, ?_⟩ <;> decide

theorem unconfigured_not_terminates :
    ¬ ∃ fuel s', halCheckPciBus unconfiguredSpace (enlist unconfiguredSpace) fuel [] 0 = .ok s' := by
  rintro ⟨fuel, s', hrun⟩
  have hregisters : Registers unconfiguredSpace (enlist unconfiguredSpace) :=
    fun s p x s' hx => (Prod.mk.inj (Except.ok.inj hx)).1.symm
  have hacyclic := exists_preorder_iff_acyclic.mp ⟨fuel, preorder_of_halCheckPciBus hregisters hrun⟩
  exact hacyclic 0 ReflTransGen.refl (TransGen.single followed_unconfiguredSpace)

end Cutesugar.Kernel.Pci
