import Cutesugar.Kernel.Misc.PciDirectory
import Cutesugar.Kernel.Misc.PciWalk
import Cutesugar.Kernel.Object.ListBuilders

/-!
# The registered functions

The enumeration starts with an empty `./Devices/PciDevices`. Every registration takes three blocks: the
object, its information, and the entry of the directory.

- `PciStart`: the kernel before;
- `Registered`: the kernel after some registrations, with the directory, the names and the records;
- `registered_next`, `registered_full`: one more registration, which fails from the thousandth on;
- `registered_run`, `registered_of_run`: all of them.
-/

namespace Cutesugar.Kernel.Pci

open Lib Libc

variable {s s' t : PciState} {k k' : State} {d o x i n devices dir fuel : ℕ} {c : List UInt8}
  {space : UInt32 → UInt32} {p q : Position} {ps qs : List Position}

/-! ## The start -/

/-- No block to come is at this address. -/
def Old (k : State) (x : ℕ) : Prop := ∀ i, k.mallocs ≤ i → x ≠ k.blocks i

/-- The kernel before the enumeration: the current process may access the root object, the directory is
empty, and no path leads into a block to come. The links of these hold zero. -/
structure PciStart (k : State) (devices dir : ℕ) : Prop where
  blocks : Blocks k
  clean : ∀ i, k.mallocs ≤ i → k.nextEntry (k.blocks i) = 0
  process : getCurrentProcess k ≠ 0
  privileged : Privileged k
  root : k.rootObject ≠ 0
  firstDevices : FirstChild k k.rootObject devicesName devices
  firstDirectory : FirstChild k devices pciDevicesName dir
  type : (k.objects dir).header.type = 1
  empty : (k.objects dir).headerList = 0
  object : ∀ o, Reach k k.rootObject o → Old k o
  entry : ∀ d x, Reach k k.rootObject d → ListNode k d x → Old k x

theorem PciStart.reach_devices (h : PciStart k devices dir) : Reach k k.rootObject devices :=
  Relation.ReflTransGen.single h.firstDevices.edge

theorem PciStart.old_directory (h : PciStart k devices dir) : Old k dir :=
  h.object dir (h.reach_devices.tail h.firstDirectory.edge)

theorem PciStart.root_ne (h : PciStart k devices dir) : k.rootObject ≠ dir :=
  fun heq => h.firstDevices.headerList (heq ▸ h.empty)

theorem PciStart.devices_ne (h : PciStart k devices dir) : devices ≠ dir :=
  fun heq => h.firstDirectory.headerList (heq ▸ h.empty)

theorem PciStart.located (h : PciStart k devices dir) :
    ∃ fuel₀, ∀ fuel, fuel₀ ≤ fuel → Located k fuel devices dir := by
  obtain ⟨fuel₁, hroot⟩ := h.privileged.objGetRootObject
  obtain ⟨fuel₂, hdevices⟩ := h.firstDevices.finds (by decide)
  obtain ⟨fuel₃, hdirectory⟩ := h.firstDirectory.finds (by decide)
  refine ⟨max fuel₁ (max fuel₂ fuel₃), fun fuel hfuel => ?_⟩
  exact
    { process := h.process
      root := hroot fuel (by omega)
      rootNonnull := h.root
      devicesNonnull := h.firstDevices.nonnull
      directoryNonnull := h.firstDirectory.nonnull
      findsDevices := hdevices fuel (by omega)
      devicesType := h.firstDirectory.1
      findsDirectory := hdirectory fuel (by omega)
      directoryType := h.type }

/-! ## After some registrations -/

/-- The block of the object that is registered at a number, and the one of its entry. -/
def objectBlock (k : State) (i : ℕ) : ℕ := k.blocks (k.mallocs + 3 * i)

def entryBlock (k : State) (i : ℕ) : ℕ := k.blocks (k.mallocs + 3 * i + 2)

/-- The kernel `s` after the functions `ps` were registered from `t` on. -/
structure Registered (space : UInt32 → UInt32) (t s : PciState) (dir : ℕ) (ps : List Position) : Prop where
  count : s.deviceCount = ps.length
  rest : ∃ objects lists, s.kernel =
    { t.kernel with mallocs := t.kernel.mallocs + 3 * ps.length, objects := objects, lists := lists }
  chain : Chain s.kernel.nextEntry (s.kernel.objects dir).headerList
    ((List.range ps.length).map (entryBlock t.kernel)) 0
  registration : ∀ i p, ps[i]? = some p →
    (s.kernel.lists (entryBlock t.kernel i)).item = objectBlock t.kernel i ∧
    objectName s.kernel (objectBlock t.kernel i) = deviceName i ∧
    s.objects (objectBlock t.kernel i) = pciObject space p
  objects : ∀ o, Old t.kernel o → o ≠ dir → s.kernel.objects o = t.kernel.objects o
  header : (s.kernel.objects dir).header = (t.kernel.objects dir).header
  lists : ∀ x, Old t.kernel x → s.kernel.lists x = t.kernel.lists x
  clean : ∀ i, s.kernel.mallocs ≤ i → s.kernel.nextEntry (t.kernel.blocks i) = 0

theorem PciStart.registered (h : PciStart t.kernel devices dir) (hcount : t.deviceCount = 0) :
    Registered space t t dir [] where
  count := hcount
  rest := ⟨_, _, rfl⟩
  chain := h.empty
  registration i p hp := by cases hp
  objects _ _ _ := rfl
  header := rfl
  lists _ _ := rfl
  clean := h.clean

theorem Registered.blocks (h : Registered space t s dir ps) : s.kernel.blocks = t.kernel.blocks := by
  obtain ⟨objects, lists, hs⟩ := h.rest
  rw [hs]

theorem Registered.mallocs (h : Registered space t s dir ps) :
    s.kernel.mallocs = t.kernel.mallocs + 3 * ps.length := by
  obtain ⟨objects, lists, hs⟩ := h.rest
  rw [hs]

/-- What is found through a directory stays where it is. -/
theorem Registered.finds (h : Registered space t s dir ps) (hstart : PciStart t.kernel devices dir)
    (hd : Reach t.kernel t.kernel.rootObject d) (hne : d ≠ dir)
    (htype : (t.kernel.objects d).header.type = 1) (hfind : Finds t.kernel fuel d c o) (hc : IsComponent c) :
    Finds s.kernel fuel d c o := by
  obtain ⟨x, hsearch, hx, hitem⟩ := hfind
  have hlen : c.length < 32 := Nat.lt_succ_of_le hc.length
  have hnode : ListNode t.kernel d x := findChild_listNode (length_pad hlen.le) hsearch hx
  refine ⟨x, ?_, hx, ?_⟩
  · rw [h.objects d (hstart.object d hd) hne, ← hsearch]
    refine findChild_congr (d := d) (fun y hy => h.lists y (hstart.entry d y hd hy)) (fun y hy => ?_)
      ListNode.head
    -- an item of the list lies below the root object too
    have hold := hstart.object _ (hd.tail ⟨htype, y, hy, rfl⟩)
    rcases eq_or_ne (t.kernel.lists y).item dir with heq | hitem
    · rw [heq]
      exact h.header
    · rw [h.objects _ hold hitem]
  · rw [h.lists x (hstart.entry d x hd hnode)]
    exact hitem

theorem Registered.located (h : Registered space t s dir ps) (hstart : PciStart t.kernel devices dir)
    (hlocated : Located t.kernel fuel devices dir) : Located s.kernel fuel devices dir := by
  obtain ⟨objects, lists, hs⟩ := id h.rest
  have hroot : s.kernel.rootObject = t.kernel.rootObject := by rw [hs]
  have hcheck : objGetRootObject fuel s.kernel = objGetRootObject fuel t.kernel := by
    rw [objGetRootObject, objGetRootObject, hs]
    rfl
  refine
    { process := ?_
      root := ?_
      rootNonnull := ?_
      devicesNonnull := hlocated.devicesNonnull
      directoryNonnull := hlocated.directoryNonnull
      findsDevices := ?_
      devicesType := ?_
      findsDirectory := ?_
      directoryType := ?_ }
  · rw [hs]
    exact hlocated.process
  · rw [hcheck, hroot]
    exact hlocated.root
  · rw [hroot]
    exact hlocated.rootNonnull
  · rw [hroot]
    exact h.finds hstart Relation.ReflTransGen.refl hstart.root_ne hstart.firstDevices.1 hlocated.findsDevices
      (by decide)
  · rw [h.objects devices (hstart.object _ hstart.reach_devices) hstart.devices_ne]
    exact hlocated.devicesType
  · exact h.finds hstart hstart.reach_devices hstart.devices_ne hstart.firstDirectory.1 hlocated.findsDirectory
      (by decide)
  · rw [h.header]
    exact hlocated.directoryType

/-! ## One registration -/

/-- The kernel with the name in a new object; the block of the information is taken too. -/
def nameObject (k : State) (bs : List UInt8) : State :=
  let object := k.blocks k.mallocs
  let header := (k.objects object).header
  { k with
    mallocs := k.mallocs + 2
    objects := Function.update k.objects object
      { k.objects object with header := { header with name := setName header.name bs } } }

/-- A name with its NUL is read back from the field. -/
theorem cString_setName (field : List.Vector UInt8 64) {bs : List UInt8} (hnul : 0 ∉ bs) (hlen : bs.length < 64) :
    cString (setName field (bs ++ [0])).toList = bs := by
  have htake : (bs ++ [(0 : UInt8)]).take 64 = bs ++ [0] := by
    apply List.take_of_length_le
    rw [List.length_append]
    exact hlen
  have hlist : (setName field (bs ++ [0])).toList = bs ++ 0 :: field.toList.drop (bs ++ [0]).length := by
    change (bs ++ [(0 : UInt8)]).take 64 ++ field.toList.drop (bs ++ [0]).length = _
    rw [htake, List.append_assoc]
    rfl
  rw [hlist, cString_append hnul]

theorem present_word (hcheck : halCheckPciDevice space p) : p.word space 0 ≠ 0xFFFF := by
  simpa [halCheckPciDevice] using hcheck

/-- **A function that is there** gets a name and is added to the directory. -/
theorem halAddPciDevice_eq (h : Located s.kernel fuel devices dir) (hfuel : 3 ≤ fuel)
    (hcheck : halCheckPciDevice space p) {bs : List UInt8} (hnul : 0 ∉ bs) (rest : List UInt8) :
    halAddPciDevice fuel space s p (bs ++ 0 :: rest) =
      (directoryAddChild fuel (nameObject s.kernel (bs ++ [0])) dir (s.kernel.blocks s.kernel.mallocs)).elim
        (.error .stuck) fun kernel => .ok (s.kernel.blocks s.kernel.mallocs,
          { s with
            kernel := kernel
            objects := Function.update s.objects (s.kernel.blocks s.kernel.mallocs) (pciObject space p) }) := by
  obtain ⟨fuel', rfl⟩ : ∃ k, fuel = k + 3 := ⟨fuel - 3, by omega⟩
  have hresolve : resolveObjectName (fuel' + 3) s.kernel (fuel' + 3) 0 (some (pciDirectory ++ [0])) = .ok dir :=
    h.resolve_directory
  have htake : (bs ++ 0 :: rest).take (bs.length + 1) = bs ++ [0] := by
    rw [List.take_append, List.take_of_length_le (Nat.le_succ _)]
    simp
  simp only [halAddPciDevice, hresolve, bind, Except.bind, if_neg h.directoryNonnull,
    if_neg (present_word hcheck), strlen_append hnul, htake]
  unfold nameObject
  cases directoryAddChild (fuel' + 3) _ dir _ with
  | none => rfl
  | some kernel => rfl

/-- What a registration does to the kernel: the object has its name and is in the directory. -/
structure Entered (fuel : ℕ) (k k' : State) (dir : ℕ) (bs : List UInt8) : Prop where
  append : appendNode fuel k.nextEntry (k.objects dir).headerList (k.blocks (k.mallocs + 2)) =
    some ((k'.objects dir).headerList, k'.nextEntry)
  item : (k'.lists (k.blocks (k.mallocs + 2))).item = k.blocks k.mallocs
  items : ∀ x, x ≠ k.blocks (k.mallocs + 2) → (k'.lists x).item = (k.lists x).item
  objects : ∀ o, o ≠ dir → o ≠ k.blocks k.mallocs → k'.objects o = k.objects o
  header : ∀ o, o ≠ k.blocks k.mallocs → (k'.objects o).header = (k.objects o).header
  name : objectName k' (k.blocks k.mallocs) = bs
  rest : ∃ objects lists, k' = { k with mallocs := k.mallocs + 3, objects := objects, lists := lists }

theorem entered_of_directoryAddChild {bs : List UInt8} (hdir : dir ≠ k.blocks k.mallocs) (hnul : 0 ∉ bs)
    (hlen : bs.length < 64)
    (h : directoryAddChild fuel (nameObject k (bs ++ [0])) dir (k.blocks k.mallocs) = some k') :
    Entered fuel k k' dir bs := by
  have hadd := directoryAddChild_spec h
  have hheader := directoryAddChild_header h
  have hother {o : ℕ} (ho : o ≠ k.blocks k.mallocs) : (nameObject k (bs ++ [0])).objects o = k.objects o :=
    Function.update_of_ne ho ..
  obtain ⟨objects, lists, hk'⟩ := hadd.rest
  have happend := hadd.append
  rw [hother hdir] at happend
  refine ⟨happend, hadd.item, hadd.items, fun o hne ho => ?_, fun o ho => ?_, ?_, objects, lists, hk'⟩
  · rw [hadd.objects o hne, hother ho]
  · rw [hheader o, hother ho]
  · have hobject : (nameObject k (bs ++ [0])).objects (k.blocks k.mallocs) =
        ⟨⟨setName (k.objects (k.blocks k.mallocs)).header.name (bs ++ [0]),
          (k.objects (k.blocks k.mallocs)).header.type⟩, (k.objects (k.blocks k.mallocs)).headerList⟩ :=
      Function.update_self ..
    rw [objectName, hheader, hobject]
    exact cString_setName _ hnul hlen

/-- An entry of which both fields stay. -/
theorem lists_eq (hitem : (k'.lists x).item = (k.lists x).item) (hnext : k'.nextEntry x = k.nextEntry x) :
    k'.lists x = k.lists x := by
  calc k'.lists x = ⟨(k'.lists x).item, k'.nextEntry x⟩ := rfl
    _ = ⟨(k.lists x).item, k.nextEntry x⟩ := by rw [hitem, hnext]
    _ = k.lists x := rfl

/-! ## All registrations -/

theorem mem_entries : x ∈ (List.range n).map (entryBlock k) ↔ ∃ i < n, entryBlock k i = x := by
  simp only [List.mem_map, List.mem_range]

/-- Entries have blocks of their own. -/
theorem entryBlock_injective (h : Blocks k) : Function.Injective (entryBlock k) := by
  intro i j heq
  have hindex := h.injective heq
  omega

theorem objectBlock_injective (h : Blocks k) : Function.Injective (objectBlock k) := by
  intro i j heq
  have hindex := h.injective heq
  omega

theorem getElem?_concat : (ps ++ [p])[i]? = some q ↔ ps[i]? = some q ∨ i = ps.length ∧ q = p := by
  rcases Nat.lt_trichotomy i ps.length with hlt | rfl | hgt
  · rw [List.getElem?_append_left hlt]
    exact ⟨.inl, fun h => h.resolve_right fun hlast => hlt.ne hlast.1⟩
  · simp [eq_comm]
  · rw [List.getElem?_eq_none (by rw [List.length_append]; exact hgt), List.getElem?_eq_none hgt.le]
    simp [hgt.ne']

/-- **The next registration**: the list of the directory goes on with the new entry. -/
theorem Registered.append (h : Registered space t s dir ps) (hstart : PciStart t.kernel devices dir)
    (henter : Entered fuel s.kernel k' dir (deviceName ps.length)) (p : Position) :
    Registered space t
      { kernel := k'
        objects := Function.update s.objects (s.kernel.blocks s.kernel.mallocs) (pciObject space p)
        deviceCount := s.deviceCount + 1 } dir (ps ++ [p]) := by
  -- the object and the entry are blocks to come
  have hobject : s.kernel.blocks s.kernel.mallocs = objectBlock t.kernel ps.length := by
    rw [h.blocks, h.mallocs, objectBlock]
  have hentry : s.kernel.blocks (s.kernel.mallocs + 2) = entryBlock t.kernel ps.length := by
    rw [h.blocks, h.mallocs, entryBlock]
  obtain ⟨happend, hitem, hitems, hobjects, hheader, hname, hrest⟩ := henter
  rw [hobject] at hitem hobjects hheader hname ⊢
  rw [hentry] at happend hitem hitems
  have hold_object {o : ℕ} (ho : Old t.kernel o) : o ≠ objectBlock t.kernel ps.length :=
    ho _ (Nat.le_add_right _ _)
  have hold_entry {x : ℕ} (hx : Old t.kernel x) (i : ℕ) : x ≠ entryBlock t.kernel i :=
    hx _ (Nat.le_add_right_of_le (Nat.le_add_right _ _))
  -- the list goes on to the new entry
  have hnodup : ((List.range ps.length).map (entryBlock t.kernel)).Nodup :=
    List.nodup_range.map (entryBlock_injective hstart.blocks)
  have hfresh : entryBlock t.kernel ps.length ∉ (List.range ps.length).map (entryBlock t.kernel) := by
    rw [mem_entries]
    rintro ⟨i, hi, heq⟩
    exact hi.ne (entryBlock_injective hstart.blocks heq)
  have hnonnull : ∀ x ∈ (List.range ps.length).map (entryBlock t.kernel), x ≠ 0 := by
    intro x hx
    obtain ⟨i, -, rfl⟩ := mem_entries.mp hx
    exact hstart.blocks.nonnull _
  obtain ⟨hchain, hframe⟩ := appendNode_spec h.chain hnodup hnonnull hfresh happend
  have hend : s.kernel.nextEntry (entryBlock t.kernel ps.length) = 0 := by
    apply h.clean
    rw [h.mallocs]
    exact Nat.le_add_right _ _
  have hnext {x : ℕ} (hx : ∀ i < ps.length, x ≠ entryBlock t.kernel i) :
      k'.nextEntry x = s.kernel.nextEntry x := by
    refine hframe x fun hmem => ?_
    obtain ⟨i, hi, rfl⟩ := mem_entries.mp hmem
    exact hx i hi rfl
  refine
    { count := ?_
      rest := ?_
      chain := ?_
      registration := fun i q hq => ?_
      objects := fun o ho hne => ?_
      header := ?_
      lists := fun x hx => ?_
      clean := fun i hi => ?_ }
  · rw [List.length_append, ← h.count]
    rfl
  · obtain ⟨objects, lists, hk'⟩ := hrest
    obtain ⟨objects', lists', hs⟩ := h.rest
    refine ⟨objects, lists, ?_⟩
    rw [hs] at hk'
    rw [List.length_append, Nat.mul_add]
    exact hk'
  · rw [List.length_append, List.length_singleton, List.range_succ, List.map_append, List.map_singleton]
    rw [hend] at hchain
    exact hchain
  · rcases getElem?_concat.mp hq with hold | ⟨rfl, rfl⟩
    · have hlt : i < ps.length := (List.getElem?_eq_some_iff.mp hold).1
      obtain ⟨hitem', hname', hrecord⟩ := h.registration i q hold
      have hne : objectBlock t.kernel i ≠ objectBlock t.kernel ps.length :=
        fun heq => hlt.ne (objectBlock_injective hstart.blocks heq)
      refine ⟨?_, ?_, ?_⟩
      · rw [hitems _ fun heq => hlt.ne (entryBlock_injective hstart.blocks heq)]
        exact hitem'
      · rw [objectName, hheader _ hne]
        exact hname'
      · exact (Function.update_of_ne hne ..).trans hrecord
    · exact ⟨hitem, hname, Function.update_self ..⟩
  · rw [hobjects o hne (hold_object ho)]
    exact h.objects o ho hne
  · rw [hheader dir (hold_object hstart.old_directory)]
    exact h.header
  · rw [← h.lists x hx]
    exact lists_eq (hitems x (hold_entry hx _)) (hnext fun i _ => hold_entry hx i)
  · obtain ⟨objects, lists, hk'⟩ := hrest
    have hmallocs : k'.mallocs = s.kernel.mallocs + 3 := by rw [hk']
    have hi' : s.kernel.mallocs + 3 ≤ i := hmallocs ▸ hi
    rw [h.mallocs] at hi'
    have hlink : s.kernel.nextEntry (t.kernel.blocks i) = 0 := by
      apply h.clean
      rw [h.mallocs]
      omega
    rw [← hlink]
    refine hnext fun j hj heq => ?_
    have hindex := hstart.blocks.injective heq
    omega

/-- **One more function** is registered while numbers have three digits. -/
theorem registered_next (hstart : PciStart t.kernel devices dir) (hlocated : Located t.kernel fuel devices dir)
    (hfuel : 1000 ≤ fuel) (h : Registered space t s dir ps) (hlen : ps.length < 1000)
    (hcheck : halCheckPciDevice space p) :
    ∃ s', registerPciDevice fuel space s p = .ok (pciObject space p, s') ∧
      Registered space t s' dir (ps ++ [p]) := by
  have hcomponent := isComponent_deviceName hlen
  have hbytes : (deviceName ps.length).length < 16 := by
    have hdigits : (digitText 10 ps.length).length ≤ 3 := length_digitText_thousand.mpr hlen
    rw [deviceName, List.length_append]
    exact (Nat.add_le_add_left hdigits 9).trans_lt (by decide)
  have hname : numberedName 16 pciDeviceName s.deviceCount = .ok (pad 16 (deviceName ps.length)) := by
    rw [h.count]
    exact numberedName_eq (by decide) (by decide) hlen
  -- the object is a block to come, so it is not the directory
  have hobject : s.kernel.blocks s.kernel.mallocs = objectBlock t.kernel ps.length := by
    rw [h.blocks, h.mallocs, objectBlock]
  have hdir : dir ≠ s.kernel.blocks s.kernel.mallocs := by
    rw [hobject]
    exact hstart.old_directory _ (Nat.le_add_right _ _)
  have hchain : Chain (nameObject s.kernel (deviceName ps.length ++ [0])).nextEntry
      ((nameObject s.kernel (deviceName ps.length ++ [0])).objects dir).headerList
      ((List.range ps.length).map (entryBlock t.kernel)) 0 := by
    have hsame : (nameObject s.kernel (deviceName ps.length ++ [0])).objects dir = s.kernel.objects dir :=
      Function.update_of_ne hdir ..
    rw [hsame]
    exact h.chain
  have hrounds : ((List.range ps.length).map (entryBlock t.kernel)).length ≤ fuel := by
    rw [List.length_map, List.length_range]
    exact hlen.le.trans hfuel
  obtain ⟨k', hchild⟩ := directoryAddChild_isSome (o := s.kernel.blocks s.kernel.mallocs)
    hlocated.directoryNonnull hchain hrounds
  have henter := entered_of_directoryAddChild hdir hcomponent.nul (hbytes.trans (by decide)) hchild
  have hadded : halAddPciDevice fuel space { s with deviceCount := s.deviceCount + 1 } p
      (pad 16 (deviceName ps.length)) = .ok (s.kernel.blocks s.kernel.mallocs,
        { kernel := k'
          objects := Function.update s.objects (s.kernel.blocks s.kernel.mallocs) (pciObject space p)
          deviceCount := s.deviceCount + 1 }) := by
    rw [pad_eq hbytes]
    refine (halAddPciDevice_eq (s := { s with deviceCount := s.deviceCount + 1 })
      (h.located hstart hlocated) (le_trans (by decide) hfuel) hcheck hcomponent.nul _).trans ?_
    change (directoryAddChild fuel _ dir (s.kernel.blocks s.kernel.mallocs)).elim _ _ = _
    rw [hchild]
    rfl
  have hnonnull : s.kernel.blocks s.kernel.mallocs ≠ 0 := by
    rw [hobject]
    exact hstart.blocks.nonnull _
  refine ⟨_, ?_, h.append hstart henter p⟩
  simp only [registerPciDevice, hname, hadded, bind, Except.bind, if_neg hnonnull]
  rw [Function.update_self]

/-- **The limit**: the name of the thousand and first function is not written any more. -/
theorem registered_full (h : Registered space t s dir ps) (hlen : ps.length = 1000) :
    registerPciDevice fuel space s p = .error .overread := by
  rw [registerPciDevice, h.count, hlen, numberedName_thousand]
  rfl

/-- **A run** of registrations within the limit. -/
theorem registered_run (hstart : PciStart t.kernel devices dir) (hlocated : Located t.kernel fuel devices dir)
    (hfuel : 1000 ≤ fuel) (h : Registered space t s dir ps) (hqs : ∀ q ∈ qs, halCheckPciDevice space q)
    (hlen : (ps ++ qs).length ≤ 1000) :
    ∃ s', qs.foldlM (registered (registerPciDevice fuel space)) s = .ok s' ∧
      Registered space t s' dir (ps ++ qs) := by
  induction qs generalizing s ps with
  | nil =>
    rw [List.append_nil]
    exact ⟨s, rfl, h⟩
  | cons q qs ih =>
    have hsplit : ps ++ q :: qs = ps ++ [q] ++ qs := by simp
    have hroom : ps.length < 1000 := by
      rw [List.length_append, List.length_cons] at hlen
      omega
    obtain ⟨s₁, hfirst, hnext⟩ :=
      registered_next hstart hlocated hfuel h hroom (hqs q (List.mem_cons_self ..))
    rw [hsplit] at hlen ⊢
    obtain ⟨s', hrun, hregistered⟩ := ih hnext (fun x hx => hqs x (List.mem_cons_of_mem q hx)) hlen
    refine ⟨s', ?_, hregistered⟩
    rw [List.foldlM_cons, registered, hfirst]
    exact hrun

/-- A run of registrations that returns has kept within the limit. -/
theorem registered_of_run (hstart : PciStart t.kernel devices dir)
    (hlocated : Located t.kernel fuel devices dir) (hfuel : 1000 ≤ fuel) (h : Registered space t s dir ps)
    (hqs : ∀ q ∈ qs, halCheckPciDevice space q) (hlen : ps.length ≤ 1000)
    (hrun : qs.foldlM (registered (registerPciDevice fuel space)) s = .ok s') :
    (ps ++ qs).length ≤ 1000 ∧ Registered space t s' dir (ps ++ qs) := by
  induction qs generalizing s ps with
  | nil =>
    obtain rfl := Except.ok.inj hrun
    rw [List.append_nil]
    exact ⟨hlen, h⟩
  | cons q qs ih =>
    have hsplit : ps ++ q :: qs = ps ++ [q] ++ qs := by simp
    rw [List.foldlM_cons, registered] at hrun
    rcases Nat.lt_or_ge ps.length 1000 with hroom | hfull
    · obtain ⟨s₁, hfirst, hnext⟩ :=
        registered_next hstart hlocated hfuel h hroom (hqs q (List.mem_cons_self ..))
      rw [hfirst] at hrun
      rw [hsplit]
      exact ih hnext (fun x hx => hqs x (List.mem_cons_of_mem q hx))
        (by rw [List.length_append]; exact hroom) hrun
    · rw [registered_full h (hlen.antisymm hfull)] at hrun
      cases hrun

/-! ## The enumeration -/

theorem registers_registerPciDevice : Registers space (registerPciDevice fuel space) := by
  intro s p x s' h
  obtain ⟨name, -, h⟩ := bind_eq_ok.mp h
  obtain ⟨⟨object, s₁⟩, hadd, h⟩ := bind_eq_ok.mp h
  dsimp only at h
  split_ifs at h with hnull
  obtain ⟨rfl, rfl⟩ := Prod.mk.inj (Except.ok.inj h)
  -- an object that is not null was stored
  obtain ⟨found, -, hadd⟩ := bind_eq_ok.mp hadd
  split_ifs at hadd with hmissing hword
  · exact absurd (Prod.mk.inj (Except.ok.inj hadd)).1.symm hnull
  · exact absurd (Prod.mk.inj (Except.ok.inj hadd)).1.symm hnull
  · obtain ⟨len, -, hadd⟩ := bind_eq_ok.mp hadd
    obtain ⟨kernel, -, hadd⟩ := bind_eq_ok.mp hadd
    obtain ⟨rfl, rfl⟩ := Prod.mk.inj (Except.ok.inj hadd)
    exact Function.update_self ..

/-- A function that is there answers. -/
theorem Present.check (h : Present space p) : halCheckPciDevice space p := by
  by_cases hzero : p.function = 0
  · have hself : p.first = p := by rw [Position.first, ← hzero]
    rw [← hself]
    exact h.first
  · exact (h.other hzero).2.2

/-- The functions that the walk comes to. -/
theorem mem_walk {bus : UInt8} (hps : preorder (busParts space) fuel bus = some ps) :
    p ∈ ps ↔ Present space p ∧ Relation.ReflTransGen (Followed space) bus p.bus := by
  rw [mem_preorder hps, Visited, descends_eq]
  constructor
  · rintro ⟨c, hvisited, hemit⟩
    obtain ⟨rfl, hpresent⟩ := emit_mem_busParts.mp hemit
    exact ⟨hpresent, hvisited⟩
  · rintro ⟨hpresent, hvisited⟩
    exact ⟨p.bus, hvisited, emit_mem_busParts.mpr ⟨rfl, hpresent⟩⟩

/-- **What the enumeration leaves behind**, when it returns. -/
theorem registered_of_enumeration (hstart : PciStart t.kernel devices dir) (hcount : t.deviceCount = 0)
    (hlocated : Located t.kernel fuel devices dir) (hfuel : 1000 ≤ fuel)
    (hrun : halCheckPciBus space (registerPciDevice fuel space) fuel t 0 = .ok s) :
    ∃ ps, preorder (busParts space) fuel 0 = some ps ∧ ps.length ≤ 1000 ∧ Registered space t s dir ps := by
  obtain ⟨ps, hps⟩ := Option.isSome_iff_exists.mp (preorder_of_halCheckPciBus registers_registerPciDevice hrun)
  rw [halCheckPciBus_eq_foldlM registers_registerPciDevice hps] at hrun
  refine ⟨ps, hps, ?_⟩
  exact registered_of_run hstart hlocated hfuel (hstart.registered hcount)
    (fun p hp => ((mem_walk hps).mp hp).1.check) (Nat.zero_le _) hrun

/-- **The enumeration returns** if the walk does and the functions are within the limit. -/
theorem enumeration_returns (hstart : PciStart t.kernel devices dir) (hcount : t.deviceCount = 0)
    (hlocated : Located t.kernel fuel devices dir) (hfuel : 1000 ≤ fuel)
    (hps : preorder (busParts space) fuel 0 = some ps) (hlen : ps.length ≤ 1000) :
    ∃ s, halCheckPciBus space (registerPciDevice fuel space) fuel t 0 = .ok s ∧ Registered space t s dir ps := by
  have hrun : halCheckPciBus space (registerPciDevice fuel space) fuel t 0 = _ :=
    halCheckPciBus_eq_foldlM registers_registerPciDevice hps t
  rw [hrun]
  exact registered_run hstart hlocated hfuel (hstart.registered hcount)
    (fun p hp => ((mem_walk hps).mp hp).1.check) hlen

/-- **The directory** holds the objects in the order of the registrations. -/
theorem Registered.dirsExact (h : Registered space t s dir ps) (hblocks : Blocks t.kernel) :
    DirsExact s.kernel [dir] fun _ => (List.range ps.length).map (objectBlock t.kernel) := by
  intro d hd
  obtain rfl := List.mem_singleton.mp hd
  refine ⟨_, h.chain, fun x hx => ?_, ?_⟩
  · obtain ⟨i, -, rfl⟩ := mem_entries.mp hx
    exact hblocks.nonnull _
  · rw [List.map_map]
    refine List.map_congr_left fun i hi => ?_
    have hlt : i < ps.length := List.mem_range.mp hi
    exact (h.registration i ps[i] (List.getElem?_eq_getElem hlt)).1

/-- **The objects** hold what was read from the functions. -/
theorem Registered.records (h : Registered space t s dir ps) :
    ((List.range ps.length).map (objectBlock t.kernel)).map s.objects = ps.map (pciObject space) := by
  apply List.ext_getElem
  · simp
  · intro i hi hi'
    have hlt : i < ps.length := by simpa using hi'
    simp only [List.getElem_map, List.getElem_range]
    exact (h.registration i ps[i] (List.getElem?_eq_getElem hlt)).2.2

/-! ## A kernel with the directory -/

/-- The directories `.`, `./Devices` and `./Devices/PciDevices`. -/
def devicesObjects : ℕ → Directory
  | 0x1000 => ⟨⟨nameField [46] short_dot, 1⟩, 0x1100⟩
  | 0x1200 => ⟨⟨nameField devicesName short_devicesName, 1⟩, 0x1300⟩
  | 0x1400 => ⟨⟨nameField pciDevicesName (by decide), 1⟩, 0⟩
  | _ => ⟨⟨nameField [] short_nil, 0⟩, 0⟩

def devicesLists : ℕ → ObjectHeaderList
  | 0x1100 => ⟨0x1200, 0⟩
  | 0x1300 => ⟨0x1400, 0⟩
  | _ => ⟨0, 0⟩

/-- The kernel before the enumeration, with one process. -/
def bootDevices : PciState where
  kernel := { bootKernel with
    objects := devicesObjects, lists := devicesLists, nodes := fun _ => ⟨0x900, 0⟩, currentTask := 0x800 }
  objects _ := ⟨0, ⟨0, 0, 0⟩, .device ⟨0, 0, 0, 0, 0⟩ [] 0⟩
  deviceCount := 0

theorem devicesLists_next (x : ℕ) : (devicesLists x).next = 0 := by
  unfold devicesLists
  split <;> rfl

theorem devicesLists_item (x : ℕ) : (devicesLists x).item < 0x200000 := by
  unfold devicesLists
  split <;> decide

theorem devicesObjects_headerList (o : ℕ) : (devicesObjects o).headerList < 0x200000 := by
  unfold devicesObjects
  split <;> decide

theorem old_bootDevices (h : x < 0x200000) : Old bootDevices.kernel x := by
  intro i _ heq
  have hblock : bootDevices.kernel.blocks i = 0x200000 + 0x10000 * i := rfl
  omega

/-- Every list has one entry at most. -/
theorem listNode_bootDevices (h : ListNode bootDevices.kernel d x) : x < 0x200000 := by
  obtain ⟨hx, nodes, hchain, -⟩ := h
  rcases List.eq_nil_or_concat' nodes with rfl | ⟨init, y, rfl⟩
  · obtain rfl := hchain
    exact devicesObjects_headerList d
  · obtain ⟨z, -, rfl, hend⟩ := chain_append.mp hchain
    exact absurd (hend.symm.trans (devicesLists_next z)) hx

theorem bootDevices_start : PciStart bootDevices.kernel 0x1200 0x1400 where
  blocks := ⟨bootKernel_start.blocks.nonnull, bootKernel_start.blocks.injective⟩
  clean i _ := devicesLists_next _
  process := by decide
  privileged := ⟨0, by decide⟩
  root := by decide
  firstDevices := ⟨rfl, [], 0x1100, rfl, by simp, by decide, rfl, by decide, by decide⟩
  firstDirectory := ⟨rfl, [], 0x1300, rfl, by simp, by decide, rfl, by decide, by decide⟩
  type := rfl
  empty := rfl
  object o ho := by
    apply old_bootDevices
    rcases Relation.ReflTransGen.cases_tail ho with rfl | ⟨d, -, -, x, -, rfl⟩
    · decide
    · exact devicesLists_item x
  entry d x _ hx := old_bootDevices (listNode_bootDevices hx)

end Cutesugar.Kernel.Pci
