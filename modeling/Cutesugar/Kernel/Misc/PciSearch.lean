import Cutesugar.Kernel.Misc.PciRegistry

/-!
# The search for PCI devices

`HalSearchForPciDevice` tries the names of the registrations one after the other until one does not
resolve. It counts down over those that resolve to an object of the class.

- `Registered.lookup`: what a name resolves to;
- `searchLoop_eq`: the loop, from a registration on;
- `search_matches_registration`: the search after the enumeration.
-/

namespace Cutesugar.Kernel.Pci

open Lib Libc

variable {s t : PciState} {i devices dir fuel rounds number : ℕ} {space : UInt32 → UInt32}
  {ps : List Position} {classCode subclass : UInt8}

/-! ## Names -/

theorem length_deviceName (h : i < 1000) : (deviceName i).length ≤ 12 := by
  have hdigits : (digitText 10 i).length ≤ 3 := length_digitText_thousand.mpr h
  rw [deviceName, List.length_append]
  exact Nat.add_le_add_left hdigits 9

theorem cString_deviceName (h : i < 1000) : cString (pad 32 (deviceName i)) = deviceName i :=
  cString_pad ((length_deviceName h).trans_lt (by decide)) (isComponent_deviceName h).nul

/-- The comparison with the name of a registration. -/
theorem Registered.childName_eq_iff (h : Registered space t s dir ps) {j : ℕ} (hj : j < ps.length)
    (hi : i < 1000) :
    childName s.kernel (objectBlock t.kernel j) = cString (pad 32 (deviceName i)) ↔ j = i := by
  have hlen : (deviceName i).length < 32 := (length_deviceName hi).trans_lt (by decide)
  obtain ⟨-, hname, -⟩ := h.registration j ps[j] (List.getElem?_eq_getElem hj)
  rw [cString_deviceName hi, Kernel.childName_eq_iff hlen, hname, deviceName_injective.eq_iff]

theorem Registered.item (h : Registered space t s dir ps) (hi : i < ps.length) :
    (s.kernel.lists (entryBlock t.kernel i)).item = objectBlock t.kernel i :=
  (h.registration i ps[i] (List.getElem?_eq_getElem hi)).1

/-! ## One name -/

/-- The search in the directory passes the entries in front of a registration. -/
theorem Registered.findChild (h : Registered space t s dir ps) (hblocks : Blocks t.kernel)
    (hlen : ps.length < 1000) (hi : i ≤ ps.length) (hfuel : 1000 ≤ fuel) :
    Kernel.findChild s.kernel (pad 32 (deviceName i)) fuel (s.kernel.objects dir).headerList =
      .ok (if i < ps.length then entryBlock t.kernel i else 0) := by
  have hi' : i < 1000 := hi.trans_lt hlen
  have hpad : (pad 32 (deviceName i)).length = 32 :=
    length_pad ((length_deviceName hi').trans (by decide))
  -- the names in front have other numbers
  have hother : ∀ x ∈ (List.range i).map (entryBlock t.kernel), x ≠ 0 ∧ (s.kernel.lists x).item ≠ 0 ∧
      childName s.kernel (s.kernel.lists x).item ≠ cString (pad 32 (deviceName i)) := by
    intro x hx
    obtain ⟨j, hj, rfl⟩ := mem_entries.mp hx
    have hj' : j < ps.length := hj.trans_le hi
    rw [h.item hj']
    refine ⟨hblocks.nonnull _, hblocks.nonnull _, fun heq => ?_⟩
    exact hj.ne ((h.childName_eq_iff hj' hi').mp heq)
  have hrounds : ((List.range i).map (entryBlock t.kernel)).length = i := by
    rw [List.length_map, List.length_range]
  have hchain := h.chain
  rcases hi.lt_or_eq with hlt | rfl
  · rw [if_pos hlt]
    obtain ⟨k, hk⟩ : ∃ k, ps.length = i + (k + 1) := ⟨ps.length - i - 1, by omega⟩
    rw [hk, List.range_add, List.map_append, List.map_map, List.range_succ_eq_map, List.map_cons] at hchain
    obtain ⟨x, hfront, rfl, -⟩ := chain_append.mp hchain
    change Chain _ _ _ (entryBlock t.kernel i) at hfront
    apply findChild_of_chain hpad hfront hother
    · exact hblocks.nonnull _
    · rw [h.item hlt]
      exact hblocks.nonnull _
    · rw [h.item hlt]
      exact (h.childName_eq_iff hlt hi').mpr rfl
    · rw [hrounds]
      exact hi'.trans_le hfuel
  · rw [if_neg (Nat.lt_irrefl _)]
    exact findChild_end hpad hchain hother (hrounds.trans_le (hi'.le.trans hfuel))

/-- **A name** resolves to the object of its registration, and the next one to the null pointer. -/
theorem Registered.lookup (h : Registered space t s dir ps) (hstart : PciStart t.kernel devices dir)
    (hlocated : Located t.kernel fuel devices dir) (hlen : ps.length < 1000) (hi : i ≤ ps.length)
    (hfuel : 1000 ≤ fuel) :
    resolveObjectName fuel s.kernel fuel 0 (some (pad 48 (pciDirectory ++ 47 :: deviceName i))) =
      .ok (if i < ps.length then objectBlock t.kernel i else 0) := by
  have hi' : i < 1000 := hi.trans_lt hlen
  have hbytes : (pciDirectory ++ 47 :: deviceName i).length < 48 := by
    have hname := length_deviceName hi'
    rw [List.length_append, List.length_cons]
    exact (Nat.add_le_add_left (Nat.succ_le_succ hname) 20).trans_lt (by decide)
  obtain ⟨fuel', rfl⟩ : ∃ k, fuel = k + 4 := ⟨fuel - 4, by omega⟩
  have hresolve (rest : List UInt8) : resolveObjectName (fuel' + 4) s.kernel (fuel' + 4) 0
      (some (pciDirectory ++ 47 :: deviceName i ++ 0 :: rest)) = _ :=
    (h.located hstart hlocated).resolve_child (isComponent_deviceName hi') rest
  simp only [h.findChild hstart.blocks hlen hi hfuel] at hresolve
  rw [pad_eq hbytes]
  refine (hresolve _).trans (congrArg Except.ok ?_)
  dsimp only
  by_cases hlt : i < ps.length
  · have hnonnull : entryBlock t.kernel i ≠ 0 := hstart.blocks.nonnull _
    rw [if_pos hlt, if_pos hlt, if_neg hnonnull]
    exact h.item hlt
  · rw [if_neg hlt, if_neg hlt]
    exact if_pos rfl

/-! ## The loop -/

/-- An object of the class. -/
def ofClass (s : PciState) (classCode subclass : UInt8) (o : ℕ) : Bool :=
  (s.objects o).information.header.classCode = classCode ∧ (s.objects o).information.header.subclass = subclass

/-- The objects from a registration on. -/
def objectsFrom (k : State) (n i : ℕ) : List ℕ := ((List.range n).map (objectBlock k)).drop i

theorem objectsFrom_of_lt {k : State} {n : ℕ} (h : i < n) :
    objectsFrom k n i = objectBlock k i :: objectsFrom k n (i + 1) := by
  have hlt : i < ((List.range n).map (objectBlock k)).length := by
    rw [List.length_map, List.length_range]
    exact h
  rw [objectsFrom, List.drop_eq_getElem_cons hlt, List.getElem_map, List.getElem_range]
  rfl

theorem objectsFrom_length (k : State) (n : ℕ) : objectsFrom k n n = [] := by
  apply List.drop_of_length_le
  rw [List.length_map, List.length_range]

/-- **The loop** from a registration on returns the object with the number among those of the class. -/
theorem searchLoop_eq (h : Registered space t s dir ps) (hstart : PciStart t.kernel devices dir)
    (hlocated : Located t.kernel fuel devices dir) (hlen : ps.length < 1000) (hi : i ≤ ps.length)
    (hfuel : 1000 ≤ fuel) (hrounds : ps.length < rounds + i) :
    searchLoop fuel s classCode subclass rounds i number =
      .ok (((objectsFrom t.kernel ps.length i).filter (ofClass s classCode subclass))[number]?.getD 0) := by
  induction rounds generalizing i number with
  | zero => omega
  | succ rounds ih =>
    have hname : numberedName 48 (pciDirectory ++ 47 :: pciDeviceName) i =
        .ok (pad 48 (pciDirectory ++ 47 :: deviceName i)) := by
      rw [numberedName_eq (by decide) (by decide) (hi.trans_lt hlen), List.append_assoc]
      rfl
    have hlookup := h.lookup hstart hlocated hlen hi hfuel
    simp only [searchLoop, hname, hlookup, bind, Except.bind]
    rcases hi.lt_or_eq with hlt | rfl
    · have hrest (number : ℕ) : searchLoop fuel s classCode subclass rounds (i + 1) number = _ :=
        ih (Nat.succ_le_of_lt hlt) (by omega)
      have hnonnull : objectBlock t.kernel i ≠ 0 := hstart.blocks.nonnull _
      rw [if_pos hlt, if_neg hnonnull, objectsFrom_of_lt hlt]
      by_cases hclass : ofClass s classCode subclass (objectBlock t.kernel i) = true
      · obtain ⟨hcode, hsub⟩ := of_decide_eq_true hclass
        rw [if_neg (by rw [not_or, not_not, not_not]; exact ⟨hcode, hsub⟩), List.filter_cons_of_pos hclass]
        cases number with
        | zero => exact if_neg fun hne => hne rfl
        | succ number =>
          rw [if_pos (Nat.succ_ne_zero number), List.getElem?_cons_succ]
          exact hrest _
      · -- another class: the number stays
        have hother : (s.objects (objectBlock t.kernel i)).information.header.classCode ≠ classCode ∨
            (s.objects (objectBlock t.kernel i)).information.header.subclass ≠ subclass := by
          rw [← not_and_or]
          exact fun hboth => hclass (decide_eq_true hboth)
        rw [if_pos hother, List.filter_cons_of_neg hclass]
        exact hrest _
    · rw [if_neg (Nat.lt_irrefl _), if_pos rfl, objectsFrom_length]
      rfl

/-! ## After the enumeration -/

theorem foldlM_enlist (l : List Position) : ps.foldlM (registered (enlist space)) l = .ok (l ++ ps) := by
  induction ps generalizing l with
  | nil =>
    rw [List.append_nil]
    rfl
  | cons p ps ih =>
    rw [List.foldlM_cons]
    refine (ih (l ++ [p])).trans ?_
    rw [List.append_assoc]
    rfl

/-- The functions in the order of the registrations. -/
theorem enlist_eq (hps : preorder (busParts space) fuel 0 = some ps) :
    halCheckPciBus space (enlist space) fuel [] 0 = .ok ps := by
  have hregisters : Registers space (enlist space) :=
    fun s p x s' hx => (Prod.mk.inj (Except.ok.inj hx)).1.symm
  exact (halCheckPciBus_eq_foldlM hregisters hps []).trans (foldlM_enlist [])

/-- **The search matches the registrations**: after the enumeration has registered at most 999 functions,
the directory holds their objects in the order of the registrations, and the search returns the object with
the number among those of the class, or the null pointer. -/
theorem search_matches_registration (hstart : PciStart t.kernel devices dir) (hcount : t.deviceCount = 0) :
    ∃ fuel₀, ∀ fuel, fuel₀ ≤ fuel → ∀ s,
      halCheckPciBus space (registerPciDevice fuel space) fuel t 0 = .ok s → s.deviceCount ≤ 999 →
      ∃ ps objects, halCheckPciBus space (enlist space) fuel [] 0 = .ok ps ∧
        DirsExact s.kernel [dir] (fun _ => objects) ∧ objects.length = s.deviceCount ∧
        objects.Nodup ∧ 0 ∉ objects ∧ objects.map s.objects = ps.map (pciObject space) ∧
        ∀ fuel', fuel₀ ≤ fuel' → ∀ classCode subclass number,
          halSearchForPciDevice fuel' s classCode subclass number =
            .ok ((objects.filter (ofClass s classCode subclass))[number]?.getD 0) := by
  obtain ⟨fuel₁, hlocated⟩ := hstart.located
  refine ⟨max fuel₁ 1000, fun fuel hfuel s hrun hfew => ?_⟩
  obtain ⟨ps, hps, -, hregistered⟩ :=
    registered_of_enumeration hstart hcount (hlocated fuel (by omega)) (by omega) hrun
  have hlen : ps.length < 1000 := by
    rw [← hregistered.count]
    exact Nat.lt_succ_of_le hfew
  refine ⟨ps, _, enlist_eq hps, hregistered.dirsExact hstart.blocks, ?_, ?_, ?_, hregistered.records, ?_⟩
  · rw [List.length_map, List.length_range, hregistered.count]
  · exact List.nodup_range.map (objectBlock_injective hstart.blocks)
  · intro hmem
    obtain ⟨i, -, hzero⟩ := List.mem_map.mp hmem
    exact hstart.blocks.nonnull _ hzero
  · intro fuel' hfuel' classCode subclass number
    exact searchLoop_eq hregistered hstart (hlocated fuel' (by omega)) hlen (Nat.zero_le _) (by omega)
      (by omega)

/-- A network controller and a storage controller on bus 0. -/
def storageSpace : UInt32 → UInt32 :=
  configSpace [(⟨0, 0, 0⟩, [(0, 0x100E8086), (8, 0x02000000)]), (⟨0, 1, 0⟩, [(0, 0x29228086), (8, 0x01060000)])]

theorem busParts_storageSpace : busParts storageSpace 0 = [.emit ⟨0, 0, 0⟩, .emit ⟨0, 1, 0⟩] := by decide

theorem preorder_storageSpace (n : ℕ) :
    preorder (busParts storageSpace) (n + 1) 0 = some [⟨0, 0, 0⟩, ⟨0, 1, 0⟩] := by
  rw [preorder, busParts_storageSpace]
  rfl

/-- The first search finds the storage controller, which was registered second, and there is no other one. -/
theorem storage_found : ∃ fuel s network storage,
    halCheckPciBus storageSpace (registerPciDevice fuel storageSpace) fuel bootDevices 0 = .ok s ∧
    network ≠ 0 ∧ s.objects network = pciObject storageSpace ⟨0, 0, 0⟩ ∧
    storage ≠ 0 ∧ s.objects storage = pciObject storageSpace ⟨0, 1, 0⟩ ∧
    halSearchForPciDevice fuel s 1 6 0 = .ok storage ∧ halSearchForPciDevice fuel s 1 6 1 = .ok 0 ∧
    halSearchForPciDevice fuel s 2 0 0 = .ok network := by
  obtain ⟨fuel₀, hsearch⟩ :=
    @search_matches_registration bootDevices 0x1200 0x1400 storageSpace bootDevices_start rfl
  obtain ⟨fuel₁, hlocated⟩ := bootDevices_start.located
  -- the enumeration registers both controllers
  have hfuel₁ : fuel₁ ≤ fuel₀ + fuel₁ + 999 + 1 := by omega
  obtain ⟨s, hrun, hregistered⟩ := enumeration_returns bootDevices_start rfl (hlocated _ hfuel₁) (by omega)
    (preorder_storageSpace _) (by decide)
  have htwo : s.deviceCount ≤ 999 := by
    rw [hregistered.count]
    decide
  obtain ⟨ps, objects, henlist, -, hlength, -, hnonnull, hrecords, hfound⟩ :=
    hsearch _ (by omega) s hrun htwo
  have hps : ps = [⟨0, 0, 0⟩, ⟨0, 1, 0⟩] :=
    (Except.ok.inj ((enlist_eq (preorder_storageSpace _)).symm.trans henlist)).symm
  rw [hregistered.count] at hlength
  obtain ⟨network, storage, rfl⟩ := List.length_eq_two.mp hlength
  rw [hps] at hrecords
  obtain ⟨hnetwork, hrest⟩ := List.cons.inj hrecords
  have hstorage : s.objects storage = pciObject storageSpace ⟨0, 1, 0⟩ := (List.cons.inj hrest).1
  obtain ⟨hfirst, hsecond⟩ : 0 ≠ network ∧ 0 ≠ storage := by
    rw [List.mem_cons, List.mem_singleton, not_or] at hnonnull
    exact hnonnull
  -- each of them is of its class only
  have hclass : ofClass s 1 6 network = false ∧ ofClass s 1 6 storage = true := by
    rw [ofClass, ofClass, hnetwork, hstorage]
    decide
  have hother : ofClass s 2 0 network = true := by
    rw [ofClass, hnetwork]
    decide
  have hdisks : [network, storage].filter (ofClass s 1 6) = [storage] := by
    simp [hclass]
  refine ⟨_, s, network, storage, hrun, hfirst.symm, hnetwork, hsecond.symm, hstorage, ?_, ?_, ?_⟩
  · rw [hfound _ (by omega), hdisks]
    rfl
  · rw [hfound _ (by omega), hdisks]
    rfl
  · rw [hfound _ (by omega), List.filter_cons_of_pos hother]
    rfl

end Cutesugar.Kernel.Pci
